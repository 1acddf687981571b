import WordTrace.Proofs.Refusal

/-! # Failures that leave no trace

A residue or a division by a word can only fail on what is looked at before anything is written: the
selector, the sizes and the result. Once these are right every carry settles, every modulus has its
inverse and every gap fits, so that writing and failing exclude each other. Where the operands are
written first they are all that a failure leaves behind.
-/

namespace WordTrace
open Limb (Fits)

namespace Recorder
variable {m : Recorder Unit} {w v : Window} {p : Prop}

/-- Failing leaves the window as it was. -/
def Spares (m : Recorder Unit) (w : Window) : Prop := ∀ f v, m.on w = (.error f, v) → v = w

/-- Failing leaves the second row as it was, and the first one outside a register. -/
def SparesOutside (register : Register) (m : Recorder Unit) (w : Window) : Prop :=
  ∀ f v, m.on w = (.error f, v) →
    v.next = w.next ∧ ∀ c ∉ register, v.row.get c = w.row.get c

theorem Rejects.spares (h : m.Rejects w) : m.Spares w := by
  obtain ⟨e, he, -⟩ := h
  intro f v hrun
  exact (Prod.mk.inj (hrun.symm.trans he)).2

theorem spares_of_ok (h : m.on w = (.ok (), v)) : m.Spares w := by
  intro f u hrun
  cases h.symm.trans hrun

/-- All that is refused may be refused before anything is written. -/
theorem RefusesIff.spares (h : m.RefusesIff p) (hp : p → m.Rejects w) : m.Spares w := by
  by_cases hrefused : p
  · exact (hp hrefused).spares
  · obtain ⟨v, hv⟩ := h.completes hrefused w
    exact spares_of_ok hv

/-- What was written before a recorder that spares the window stays, and nothing else does. -/
theorem Spares.outside {m' : Recorder Unit} {register : Register} {r : Row}
    (h : m.Spares ⟨r, w.next⟩) (hrun : m'.on w = m.on ⟨r, w.next⟩)
    (hr : ∀ c ∉ register, r.get c = w.row.get c) : m'.SparesOutside register w := by
  intro f v hfail
  obtain rfl := h f v (hrun.symm.trans hfail)
  exact ⟨rfl, hr⟩

end Recorder

namespace Residue

theorem rejects_of_not_fits {a b m : ℤ} (h : ¬Fits 2 a ∨ ¬Fits 2 b ∨ ¬Fits 2 m) (s : ℤ)
    (w : Window) : (record s a b m).Rejects w := by
  unfold record
  split
  · exact rejects_fill h _ w
  · exact Recorder.rejects_throw (.unsupported .residue s) trivial w

theorem spares_record {m : ℤ} (h0 : 0 ≤ m) (s a b : ℤ) (w : Window) :
    (record s a b m).Spares w := by
  apply (refusesIff_record s a b m).spares
  rintro (hs | hwide | hneg)
  · exact rejects_unsupported hs a b m w
  · exact rejects_of_not_fits hwide s w
  · exact absurd hneg (not_lt.mpr h0)

end Residue

namespace Division

theorem spares_fill {a b : ℤ} (ha : Fits 2 a) (h0 : 0 ≤ b) (hb : Fits 2 b) (s result : ℤ)
    (w : Window) : (fill s a b result).Spares w := by
  apply (refusesIff_fill ha hb s result).spares
  rintro (hanswers | hneg)
  · exact rejects_fill hanswers w
  · exact absurd hneg (not_lt.mpr h0)

theorem sparesOutside_record (a b : Word) (s result : ℤ) (w : Window) :
    (record s a.val b.val result).SparesOutside (Layout.operand0 ++ Layout.operand1) w := by
  have hspares := spares_fill (Fits.word a) b.property.1 (Fits.word b) s result
  refine (hspares _).outside (on_record_eq w (Fits.word a) (Fits.word b) s result) ?_
  intro c hc
  obtain ⟨h0, h1⟩ := not_or.mp (mt List.mem_append.mpr hc)
  rw [Row.get_write_of_not_mem _ _ h1, Row.get_write_of_not_mem _ _ h0]

end Division

namespace Shift

theorem sparesOutside_right (amount z : Word) (result : ℤ) (w : Window) :
    (record .right amount.val z.val result).SparesOutside
      (Layout.operand0 ++ Layout.operand1 ++ Layout.operand2) w := by
  have hspares := Division.spares_fill (Fits.word z) (factor_bounds amount.val).1
    (fits_factor amount.val) (WordOp.selector .shr).val result
  refine (hspares _).outside
    (on_record_right_eq w amount.property.1 (Fits.word amount) (Fits.word z) result) ?_
  intro c hc
  obtain ⟨hc, h2⟩ := not_or.mp (mt List.mem_append.mpr hc)
  obtain ⟨h0, h1⟩ := not_or.mp (mt List.mem_append.mpr hc)
  rw [operands, Row.get_write_of_not_mem _ _ h2, Row.get_write_of_not_mem _ _ h1,
    Row.get_write_of_not_mem _ _ h0]

end Shift

namespace Chain

/-- Under the selectors of its own operators a chain has nothing but the sizes to complain of. -/
theorem not_unsupported {op : WordOp} (hop : op.Adds) (a b s : ℤ) (w v : Window) :
    (record op.selector.val a b).on w ≠ (.error (.unsupported .chain s), v) := by
  obtain ⟨t, ht⟩ := WordOp.exists_terms hop a b
  intro hrun
  by_cases h : ¬Fits 2 a ∨ ¬Fits 2 b
  · rw [record_selector ht] at hrun
    obtain ⟨z, u, hwide⟩ := Recorder.on_operands_of_not_fits h _ w
    cases hwide.symm.trans hrun
  · obtain ⟨ha, hb⟩ := not_or.mp h
    cases (on_record w (not_not.mp ha) (not_not.mp hb) ht).symm.trans hrun

theorem on_record_eq_unsupported_iff (s a b : ℤ) (w v : Window) :
    (record s a b).on w = (.error (.unsupported .chain s), v) ↔
      (∀ op : WordOp, op.Adds → s ≠ op.selector.val) ∧ v = w := by
  constructor
  · intro hrun
    have hs : ∀ op : WordOp, op.Adds → s ≠ op.selector.val := by
      rintro op hop rfl
      exact not_unsupported hop a b _ w v hrun
    rw [record_unsupported hs] at hrun
    exact ⟨hs, (Prod.mk.inj hrun).2.symm⟩
  · rintro ⟨hs, rfl⟩
    rw [record_unsupported hs]
    rfl

end Chain

/-- A failing residue whose modulus is not negative, and a failing division of numbers that fit by
one that is not, leave the window as it was. A division or a right shift of words that takes its
operands as well can leave these behind and nothing else. A chain refuses a selector at once. -/
theorem failures_spare :
    (∀ (s a b m : ℤ) (w : Window), 0 ≤ m → (Residue.record s a b m).Spares w) ∧
    (∀ (s a b result : ℤ) (w : Window), |a| < wordLimit → 0 ≤ b → b < wordLimit →
      (Division.fill s a b result).Spares w) ∧
    (∀ (a b : Word) (s result : ℤ) (w : Window),
      (Division.record s a.val b.val result).SparesOutside
        (Layout.operand0 ++ Layout.operand1) w) ∧
    (∀ (amount z : Word) (result : ℤ) (w : Window),
      (Shift.record .right amount.val z.val result).SparesOutside
        (Layout.operand0 ++ Layout.operand1 ++ Layout.operand2) w) ∧
    ∀ (s a b : ℤ) (w v : Window), (Chain.record s a b).on w = (.error (.unsupported .chain s), v) ↔
      (∀ op : WordOp, op.Adds → s ≠ op.selector.val) ∧ v = w := by
  refine ⟨?_, ?_, Division.sparesOutside_record, Shift.sparesOutside_right,
    Chain.on_record_eq_unsupported_iff⟩
  · intro s a b m w h0
    exact Residue.spares_record h0 s a b w
  · intro s a b result w ha h0 hb
    have hfits : Fits 2 a := (Limb.fits_two_iff a).mpr (abs_lt.mp ha)
    exact Division.spares_fill hfits h0 (fits_of_bounds h0 hb) s result w

/-- A quotient that is wrong is refused over the rows of whatever was there before. -/
theorem failures_spare_wrong_quotient :
    let w : Window := ⟨Row.zero.set Layout.outputLow 7, Row.zero.set Layout.modulusIsZero 1⟩
    (Division.fill (WordOp.selector .div).val (-10) 3 4).on w =
      (.error (.wrongQuotient 4 (-4)), w) := by
  intro w
  have hspares := failures_spare.2.1 (WordOp.selector .div).val (-10) 3 4 w (by decide) (by decide)
    (by decide)
  have hfault : ((Division.fill (WordOp.selector .div).val (-10) 3 4).on w).1 =
      .error (.wrongQuotient 4 (-4)) := by decide +kernel
  exact Prod.ext hfault (hspares _ _ (Prod.ext hfault rfl))

end WordTrace

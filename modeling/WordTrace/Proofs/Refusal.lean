import WordTrace.Proofs.Operation
import WordTrace.Proofs.Report

/-! # What the gadgets refuse

A gadget called with integers of whatever size and sign, under whatever selector and on whatever
window, completes or refuses the call. Refused are selectors that are not the gadget's, numbers that
do not fit their registers, negative amounts, divisors and moduli, and results that are not the
operator's. Limbs of whatever sign settle once all of these are ruled out.
-/

namespace WordTrace
open Limb (Fits digits)
open Remainder (quotient remainder)

/-- What the numbers given to a gadget can bring about. Any other fault would be one of the
gadget. -/
def Fault.IsRefusal : Fault → Prop
  | negativeShift => True
  | tooWide _ _ => True
  | unsupported _ _ => True
  | wrongQuotient _ _ => True
  | wrongShift _ _ => True
  | notScalar _ => True
  | noCoefficients => False
  | notRoot _ => False
  | brokenSum _ _ _ => False
  | brokenProduct _ _ _ => False
  | unset _ => False
  | unknownSelector _ => False
  | overfull _ _ => False

/-- Numbers that are too long to be written out are refused in the same class as others. -/
theorem Fault.IsRefusal.category_report {f : Fault} (h : f.IsRefusal) (limits : Text.Limits) :
    (f.report limits).category = .value := by
  rw [Fault.category_report]
  cases f <;> first | rfl | cases h

namespace Recorder
variable {α β : Type} {w v : Window} {m : Recorder Unit} {p q : Prop}

/-- Recording stops, and for a reason that lies in the numbers. -/
def Refuses (m : Recorder α) (w : Window) : Prop := ∃ f v, m.on w = (.error f, v) ∧ f.IsRefusal

/-- Recording stops so before anything is written. -/
def Rejects (m : Recorder α) (w : Window) : Prop := ∃ f, m.on w = (.error f, w) ∧ f.IsRefusal

theorem Rejects.refuses {m : Recorder α} (h : m.Rejects w) : m.Refuses w := by
  obtain ⟨f, hrun, hf⟩ := h
  exact ⟨f, w, hrun, hf⟩

theorem rejects_throw (f : Fault) (hf : f.IsRefusal) (w : Window) :
    (throw f : Recorder α).Rejects w := ⟨f, on_throw f w, hf⟩

theorem rejects_monadLift {f : Fault} {x : Except Fault α} (hx : x = .error f) (hf : f.IsRefusal)
    (w : Window) : (monadLift x : Recorder α).Rejects w := ⟨f, by rw [hx, on_monadLift], hf⟩

/-- What is rejected is not gone on with. -/
theorem Rejects.bind {m : Recorder α} (h : m.Rejects w) (f : α → Recorder β) :
    (m >>= f).Rejects w := by
  obtain ⟨e, hrun, he⟩ := h
  exact ⟨e, on_bind_error hrun, he⟩

theorem rejects_bind_of_ok {m : Recorder α} {f : α → Recorder β} {a : α} (h : m.on w = (.ok a, w))
    (hf : (f a).Rejects w) : (m >>= f).Rejects w := by
  obtain ⟨e, hrun, he⟩ := hf
  exact ⟨e, (on_bind_ok h).trans hrun, he⟩

theorem refuses_bind_of_ok {m : Recorder α} {f : α → Recorder β} {a : α} (h : m.on w = (.ok a, v))
    (hf : (f a).Refuses v) : (m >>= f).Refuses w := by
  obtain ⟨e, u, hrun, he⟩ := hf
  exact ⟨e, u, (on_bind_ok h).trans hrun, he⟩

theorem rejects_splitWord {z : ℤ} (hz : ¬Fits 2 z) (w : Window) :
    (monadLift (Limb.splitWord z) : Recorder (List ℤ)).Rejects w :=
  rejects_monadLift (Limb.splitWord_of_not_fits hz) trivial w

/-- Two operands are written, and the first that is too wide stops recording. -/
theorem on_operands_of_not_fits {a b : ℤ} (h : ¬Fits 2 a ∨ ¬Fits 2 b) (rest : Recorder Unit)
    (w : Window) : ∃ z v, (do
      writeWord .current Layout.operand0 a
      writeWord .current Layout.operand1 b
      rest : Recorder Unit).on w = (.error (.tooWide z 2), v) := by
  by_cases ha : Fits 2 a
  · have hb : ¬Fits 2 b := h.resolve_left (not_not_intro ha)
    have hstop := on_writeWord_of_not_fits hb .current Layout.operand1
    exact ⟨b, _, (on_bind_ok (on_writeWord w rfl ha)).trans (on_bind_error (hstop _))⟩
  · exact ⟨a, w, on_bind_error (on_writeWord_of_not_fits ha _ _ w)⟩

theorem refuses_operands {a b : ℤ} (h : ¬Fits 2 a ∨ ¬Fits 2 b) (rest : Recorder Unit) (w : Window) :
    (do
      writeWord .current Layout.operand0 a
      writeWord .current Layout.operand1 b
      rest : Recorder Unit).Refuses w := by
  obtain ⟨z, v, hrun⟩ := on_operands_of_not_fits h rest w
  exact ⟨_, v, hrun, trivial⟩

/-- Under the condition every window is refused, and otherwise recording completes on every one. -/
structure RefusesIff (m : Recorder Unit) (p : Prop) : Prop where
  refuses : p → ∀ w, m.Refuses w
  completes : ¬p → ∀ w, ∃ v, m.on w = (.ok (), v)

theorem RefusesIff.of_iff (h : m.RefusesIff p) (hpq : p ↔ q) : m.RefusesIff q where
  refuses hq := h.refuses (hpq.mpr hq)
  completes hq := h.completes (mt hpq.mp hq)

/-- One condition is refused at once, and without it there remains another. -/
theorem RefusesIff.or (hp : p → ∀ w, m.Refuses w) (hq : ¬p → m.RefusesIff q) :
    m.RefusesIff (p ∨ q) := by
  by_cases h : p
  · exact ⟨fun _ => hp h, fun hn => absurd (.inl h) hn⟩
  · exact (hq h).of_iff (or_iff_right h).symm

/-- A recorder that comes to the start of another refuses what the other does. -/
theorem RefusesIff.of_on {m' : Recorder Unit} (h : m'.RefusesIff p) (f : Window → Window)
    (hrun : ∀ w, m.on w = m'.on (f w)) : m.RefusesIff p where
  refuses hp w := by
    obtain ⟨e, v, he, href⟩ := h.refuses hp (f w)
    exact ⟨e, v, (hrun w).trans he, href⟩
  completes hp w := by
    obtain ⟨v, hv⟩ := h.completes hp (f w)
    exact ⟨v, (hrun w).trans hv⟩

end Recorder

open Recorder (RefusesIff rejects_throw rejects_monadLift rejects_bind_of_ok rejects_splitWord
  refuses_bind_of_ok refuses_operands on_bind_ok on_writeWord on_splitWord on_lift_ok)

/-- What is found by a number has that number. -/
theorem eq_of_find?_beq {α : Type} {number : α → ℤ} {s : ℤ} {as : List α} {a : α}
    (h : as.find? (fun a => number a == s) = some a) : s = number a := by
  have hfound := List.find?_some h
  exact (beq_iff_eq.mp hfound).symm

namespace Chain
variable {s : ℤ}

theorem record_unsupported (h : ∀ op : WordOp, op.Adds → s ≠ op.selector.val) (a b : ℤ) :
    record s a b = throw (.unsupported .chain s) := by
  have hterms : (WordOp.ofSelector? s).bind (terms? a b) = none := by
    rw [Option.bind_eq_none_iff]
    intro op hop
    have hs := eq_of_find?_beq hop
    cases op
    case add | sub | lt | gt => exact absurd hs (h _ (by decide))
    -- the operators of other gadgets are no sums
    all_goals rfl
  rw [record, hterms]

theorem refusesIff_record (s a b : ℤ) : (record s a b).RefusesIff
    ((∀ op : WordOp, op.Adds → s ≠ op.selector.val) ∨ ¬Fits 2 a ∨ ¬Fits 2 b) := by
  refine .or ?_ ?_
  · intro h w
    rw [record_unsupported h]
    exact (rejects_throw (.unsupported .chain s) trivial w).refuses
  intro h
  obtain ⟨op, hop, rfl⟩ : ∃ op : WordOp, op.Adds ∧ s = op.selector.val := by
    simpa only [not_forall, not_ne_iff, exists_prop] using h
  obtain ⟨t, ht⟩ := WordOp.exists_terms hop a b
  constructor
  · intro hwide w
    rw [record_selector ht]
    exact refuses_operands hwide _ w
  · intro hfits w
    obtain ⟨ha, hb⟩ := not_or.mp hfits
    exact ⟨_, on_record w (not_not.mp ha) (not_not.mp hb) ht⟩

end Chain

namespace Product

theorem refusesIff_record (a b : ℤ) : (record a b).RefusesIff (¬Fits 2 a ∨ ¬Fits 2 b) := by
  constructor
  · intro hwide w
    exact refuses_operands hwide _ w
  · intro hfits w
    obtain ⟨ha, hb⟩ := not_or.mp hfits
    exact ⟨_, on_record w (not_not.mp ha) (not_not.mp hb)⟩

end Product

namespace Division
variable {s a b result : ℤ}

/-- The result is the quotient or the remainder, whichever the selector asks for. -/
def Answers (s a b result : ℤ) : Prop :=
  (s = (WordOp.selector .div).val ∨ s = (WordOp.selector .shr).val) ∧ result = quotient a b ∨
    s = (WordOp.selector .mod).val ∧ result = remainder a b

theorem answers_iff : Answers s a b result ↔ ∃ op : WordOp,
    s = op.selector.val ∧ select? (quotient a b) (remainder a b) op = some result := by
  constructor
  · rintro (⟨rfl | rfl, rfl⟩ | ⟨rfl, rfl⟩)
    · exact ⟨.div, rfl, rfl⟩
    · exact ⟨.shr, rfl, rfl⟩
    · exact ⟨.mod, rfl, rfl⟩
  · rintro ⟨op, rfl, hout⟩
    cases op <;> cases hout
    case div.refl => exact .inl ⟨.inl rfl, rfl⟩
    case mod.refl => exact .inr ⟨rfl, rfl⟩
    case shr.refl => exact .inl ⟨.inr rfl, rfl⟩

theorem rejects_fill (h : ¬Answers s a b result) (w : Window) : (fill s a b result).Rejects w := by
  unfold fill
  cases hselect : (WordOp.ofSelector? s).bind (select? (quotient a b) (remainder a b)) with
  | none =>
    simpa only [hselect] using rejects_throw (.unsupported .division s) trivial w
  | some output =>
    obtain ⟨op, hop, hout⟩ := Option.bind_eq_some_iff.mp hselect
    have hs := eq_of_find?_beq hop
    have hne : output ≠ result := by
      rintro rfl
      exact h (answers_iff.mpr ⟨op, hs, hout⟩)
    simpa only [hselect, if_neg hne] using rejects_throw (.wrongQuotient result output) trivial w

/-- Once dividend and divisor fit, all that matters is the result and the sign of the divisor. -/
theorem refusesIff_fill (ha : Fits 2 a) (hb : Fits 2 b) (s result : ℤ) :
    (fill s a b result).RefusesIff (¬Answers s a b result ∨ b < 0) := by
  refine .or (fun h w => (rejects_fill h w).refuses) ?_
  intro h
  obtain ⟨op, rfl, hout⟩ := answers_iff.mp (not_not.mp h)
  -- a negative divisor is found out last, when all but its inverse and the gap is recorded
  constructor
  · intro hneg w
    have hrun := (on_fill_eq_on_record w ha hb hout).trans (Remainder.on_record_of_neg _ hneg)
    exact ⟨_, _, hrun, trivial⟩
  · intro h0 w
    exact ⟨_, on_fill w ha (not_lt.mp h0) hb hout⟩

theorem refusesIff_record (s a b result : ℤ) : (record s a b result).RefusesIff
    ((¬Fits 2 a ∨ ¬Fits 2 b) ∨ ¬Answers s a b result ∨ b < 0) := by
  refine .or (fun hwide w => refuses_operands hwide _ w) ?_
  intro hfits
  obtain ⟨ha, hb⟩ := (not_or.mp hfits).imp not_not.mp not_not.mp
  exact (refusesIff_fill ha hb s result).of_on _ (on_record_eq · ha hb s result)

end Division

namespace Shift
variable {amount z : ℤ}

theorem refusesIff_record {p : Prop} {direction : Direction} {result : ℤ}
    (h : 0 ≤ amount → Fits 2 amount → Fits 2 z → (record direction amount z result).RefusesIff p) :
    (record direction amount z result).RefusesIff
      (amount < 0 ∨ (¬Fits 2 amount ∨ ¬Fits 2 z) ∨ p) := by
  refine .or ?_ ?_
  · intro hneg w
    have hfactor : factor? amount = .error .negativeShift := if_pos hneg
    exact ((rejects_monadLift hfactor trivial w).bind _).refuses
  intro hneg
  have h0 := not_lt.mp hneg
  refine .or ?_ ?_
  · intro hwide w
    have hfactor : factor? amount = .ok (factor amount) := if_neg hneg
    exact refuses_bind_of_ok (on_lift_ok hfactor w) (refuses_operands hwide _ w)
  intro hfits
  obtain ⟨ha, hz⟩ := (not_or.mp hfits).imp not_not.mp not_not.mp
  exact h h0 ha hz

/-- No number but the output has the limbs of the output. -/
theorem refusesIff_left (h0 : 0 ≤ amount) (ha : Fits 2 amount) (hz : Fits 2 z) (result : ℤ) :
    (record .left amount z result).RefusesIff (result ≠ wrap (z * factor amount)) := by
  refine RefusesIff.of_on ?_ _ (on_record_left_eq · h0 ha hz result)
  constructor
  · intro hne w
    by_cases hfits : Fits 2 result
    · have hdigits : ¬digits 2 (wrap (z * factor amount)) = digits 2 result := by
        intro heq
        have hvalue := congrArg Limb.value heq
        rw [Limb.value_digits (fits_wrap _), Limb.value_digits hfits] at hvalue
        exact hne hvalue.symm
      refine refuses_bind_of_ok (on_splitWord w hfits) ?_
      rw [if_neg hdigits]
      exact (rejects_throw (.wrongShift result _) trivial w).refuses
    · exact ((rejects_splitWord hfits w).bind _).refuses
  · intro heq w
    rw [not_not.mp heq]
    refine ⟨w, (on_bind_ok (on_splitWord w (fits_wrap _))).trans ?_⟩
    rw [if_pos rfl]
    rfl

/-- A right shift divides by a power of two and rounds down. -/
theorem quotient_factor (amount z : ℤ) :
    quotient z (factor amount) = if 32 ≤ amount then 0 else z / 2 ^ amount.toNat := by
  rw [← WordOp.result_shr, WordOp.result, Int.shiftRight_eq_div_pow]
  norm_cast

theorem refusesIff_right (h0 : 0 ≤ amount) (ha : Fits 2 amount) (hz : Fits 2 z) (result : ℤ) :
    (record .right amount z result).RefusesIff (result ≠ quotient z (factor amount)) := by
  have hfill := Division.refusesIff_fill hz (fits_factor amount) (WordOp.selector .shr).val result
  refine (hfill.of_iff ?_).of_on _ (on_record_right_eq · h0 ha hz result)
  rw [or_iff_left (not_lt.mpr (factor_bounds amount).1)]
  apply not_congr
  constructor
  · rintro (⟨-, hresult⟩ | ⟨hmod, -⟩)
    · exact hresult
    · exact absurd hmod (by decide)
  · intro hresult
    exact .inl ⟨.inr rfl, hresult⟩

end Shift

namespace Residue
variable {s : ℤ}

theorem rejects_unsupported (h : ∀ op : ResidueOp, s ≠ op.selector.val) (a b m : ℤ) (w : Window) :
    (record s a b m).Rejects w := by
  have hnone : ResidueOp.ofSelector? s = none := by
    rw [Option.eq_none_iff_forall_ne_some]
    intro op hop
    have hs := eq_of_find?_beq hop
    exact h op hs
  have hrecord : record s a b m = throw (.unsupported .residue s) := by rw [record, hnone]
  rw [hrecord]
  exact rejects_throw (.unsupported .residue s) trivial w

theorem rejects_fill {a b m : ℤ} (h : ¬Fits 2 a ∨ ¬Fits 2 b ∨ ¬Fits 2 m) (op : ResidueOp)
    (w : Window) : (fill op a b m).Rejects w := by
  unfold fill
  by_cases ha : Fits 2 a
  · refine rejects_bind_of_ok (on_splitWord w ha) ?_
    by_cases hb : Fits 2 b
    · have hm := (h.resolve_left (not_not_intro ha)).resolve_left (not_not_intro hb)
      exact rejects_bind_of_ok (on_splitWord w hb) ((rejects_splitWord hm w).bind _)
    · exact (rejects_splitWord hb w).bind _
  · exact (rejects_splitWord ha w).bind _

theorem refusesIff_record (s a b m : ℤ) : (record s a b m).RefusesIff
    ((∀ op : ResidueOp, s ≠ op.selector.val) ∨ (¬Fits 2 a ∨ ¬Fits 2 b ∨ ¬Fits 2 m) ∨ m < 0) := by
  refine .or (fun h w => (rejects_unsupported h a b m w).refuses) ?_
  intro h
  obtain ⟨op, rfl⟩ : ∃ op : ResidueOp, s = op.selector.val := by
    simpa only [not_forall, not_ne_iff] using h
  rw [record_selector]
  refine .or (fun hwide w => (rejects_fill hwide op w).refuses) ?_
  intro hfits
  simp only [not_or, not_not] at hfits
  obtain ⟨ha, hb, hm⟩ := hfits
  constructor
  · intro hneg w
    have hrun := (on_fill_eq_on_record op w ha hb hm).trans (Remainder.on_record_of_neg _ hneg)
    exact ⟨_, _, hrun, trivial⟩
  · intro h0 w
    have hrun := on_record op w ha hb (not_lt.mp h0) hm
    rw [record_selector] at hrun
    exact ⟨_, hrun⟩

end Residue

/-- Each gadget refuses exactly the calls listed here, and completes all others: any integers, any
selector and any window are taken. -/
theorem refusals_exact :
    (∀ s a b : ℤ, (Chain.record s a b).RefusesIff
      ((∀ op : WordOp, op.Adds → s ≠ op.selector.val) ∨ wordLimit ≤ |a| ∨ wordLimit ≤ |b|)) ∧
    (∀ a b : ℤ, (Product.record a b).RefusesIff (wordLimit ≤ |a| ∨ wordLimit ≤ |b|)) ∧
    (∀ s a b result : ℤ, (Division.record s a b result).RefusesIff
      (wordLimit ≤ |a| ∨ wordLimit ≤ |b| ∨ ¬Division.Answers s a b result ∨ b < 0)) ∧
    (∀ amount z result : ℤ, (Shift.record .left amount z result).RefusesIff
      (amount < 0 ∨ wordLimit ≤ amount ∨ wordLimit ≤ |z| ∨
        result ≠ wrap (z * Shift.factor amount))) ∧
    (∀ amount z result : ℤ, (Shift.record .right amount z result).RefusesIff
      (amount < 0 ∨ wordLimit ≤ amount ∨ wordLimit ≤ |z| ∨
        result ≠ if 32 ≤ amount then 0 else z / 2 ^ amount.toNat)) ∧
    ∀ s a b m : ℤ, (Residue.record s a b m).RefusesIff
      ((∀ op : ResidueOp, s ≠ op.selector.val) ∨ wordLimit ≤ |a| ∨ wordLimit ≤ |b| ∨
        wordLimit ≤ |m| ∨ m < 0) := by
  have hamount {amount z : ℤ} {p : Prop} :
      amount < 0 ∨ (¬Fits 2 amount ∨ ¬Fits 2 z) ∨ p ↔
        amount < 0 ∨ wordLimit ≤ amount ∨ wordLimit ≤ |z| ∨ p := by
    rw [or_assoc, Limb.not_fits_two_iff z, Limb.fits_two_iff]
    by_cases hneg : amount < 0
    · exact iff_of_true (.inl hneg) (.inl hneg)
    · have hlow : -wordLimit < amount := lt_of_lt_of_le (by decide) (not_lt.mp hneg)
      simp only [hlow, true_and, not_lt]
  refine ⟨?_, ?_, ?_, ?_, ?_, ?_⟩
  · intro s a b
    simpa only [Limb.not_fits_two_iff] using Chain.refusesIff_record s a b
  · intro a b
    simpa only [Limb.not_fits_two_iff] using Product.refusesIff_record a b
  · intro s a b result
    simpa only [Limb.not_fits_two_iff, or_assoc] using Division.refusesIff_record s a b result
  · intro amount z result
    exact (Shift.refusesIff_record fun h0 ha hz =>
      Shift.refusesIff_left h0 ha hz result).of_iff hamount
  · intro amount z result
    rw [← Shift.quotient_factor]
    exact (Shift.refusesIff_record fun h0 ha hz =>
      Shift.refusesIff_right h0 ha hz result).of_iff hamount
  · intro s a b m
    simpa only [Limb.not_fits_two_iff, or_assoc] using Residue.refusesIff_record s a b m

end WordTrace

import WordTrace.Proofs.Recording
import WordTrace.Proofs.Verdict

/-! # What a bounded remainder determines

The flag tells whether the modulus is zero. Limbs in range bound the remainder by the modulus, so
that one equation of integers leaves a single quotient and a single remainder.
-/

namespace WordTrace
open Limb (InRange number valueFelt cells)

namespace Limb
variable {xs : List Felt}

theorem number_of_vanish (h : Vanish xs) : number xs = 0 := by
  induction xs with
  | nil => rfl
  | cons x xs ih =>
    obtain ⟨hx, hxs⟩ := vanish_cons.mp h
    have hnumber : number (x :: xs) = x.signed + base * number xs := rfl
    rw [hnumber, ih hxs, hx]
    rfl

namespace InRange

theorem word_bounds (h : InRange xs) (hlen : xs.length = 2) :
    0 ≤ number xs ∧ number xs < wordLimit := by
  have hbounds := h.number_bounds
  rwa [hlen] at hbounds

/-- Limbs in range hold zero in the field only when they spell zero. -/
theorem number_eq_zero (h : InRange xs) (hlen : xs.length = 2) (hv : valueFelt xs = 0) :
    number xs = 0 :=
  eq_of_ofInt_eq (h.word_bounds hlen) (by decide) ((ofInt_number xs).trans hv)

theorem eq_cells_of_number {z : ℤ} (h : InRange xs) (hlen : xs.length = 2) (hz : number xs = z) :
    xs = cells 2 z := by
  rw [← hz, ← hlen]
  exact h.eq_cells

end InRange
end Limb

namespace Remainder
variable {next next' : Row} {m r q p : List Felt} {z : ℤ}

theorem eq_of_mul_add {m q r : ℤ} (h : m * q + r = z) (h0 : 0 ≤ r) (hr : r < m) :
    q = quotient z m ∧ r = remainder z m := by
  have hm : 0 < m := h0.trans_lt hr
  obtain ⟨hq, hr'⟩ := (Int.ediv_emod_unique hm).mpr ⟨(add_comm r (m * q)).trans h, h0, hr⟩
  rw [quotient, remainder, if_neg hm.ne', if_neg hm.ne', Int.fdiv_eq_ediv_of_nonneg z hm.le,
    Int.fmod_eq_emod_of_nonneg z hm.le]
  exact ⟨hq.symm, hr'.symm⟩

theorem Proper.ne_zero (h : Proper next m r p) : valueFelt m ≠ 0 := by
  intro hm
  have hinv := h.inverse
  rw [hm, zero_mul] at hinv
  exact zero_ne_one hinv

theorem degenerate_of_eq_zero (h : Degenerate next m r q ∨ Proper next m r p)
    (hm : valueFelt m = 0) : Degenerate next m r q :=
  h.resolve_right fun hp => hp.ne_zero hm

theorem proper_of_ne_zero (h : Degenerate next m r q ∨ Proper next m r p)
    (hm : valueFelt m ≠ 0) : Proper next m r p :=
  h.resolve_left fun hd => hm hd.modulus

/-- The gap is what the remainder lacks to the modulus less one, over the integers. -/
theorem Proper.number_gap (h : Proper next m r p) (hm : InRange m) (hr : InRange r)
    (hg : InRange (next.limbs Layout.gap)) (hlm : m.length = 2) (hlr : r.length = 2) :
    number m - number r - 1 = number (next.limbs Layout.gap) := by
  have hbm := hm.word_bounds hlm
  have hbr := hr.word_bounds hlr
  have hbg := hg.word_bounds (by rw [Row.length_limbs]; rfl)
  have hgap := h.gap
  rw [← Limb.ofInt_number, ← Limb.ofInt_number, ← Limb.ofInt_number, ← Felt.ofInt_one,
    ← Felt.ofInt_sub, ← Felt.ofInt_sub] at hgap
  refine Felt.eq_of_ofInt_eq hgap ?_
  rw [abs_lt]
  simp only [wordLimit, prime] at *
  omega

/-- Range checks and one equation of integers fix quotient and remainder. -/
theorem number_eq (h : Degenerate next m r q ∨ Proper next m r p) (hm : InRange m)
    (hr : InRange r) (hg : InRange (next.limbs Layout.gap)) (hlm : m.length = 2)
    (hlr : r.length = 2) (hz : Proper next m r p → number m * number q + number r = z) :
    number q = quotient z (number m) ∧ number r = remainder z (number m) := by
  rcases h with hd | hp
  · rw [hm.number_eq_zero hlm hd.modulus, Limb.number_of_vanish hd.quotient,
      Limb.number_of_vanish hd.remainder]
    exact ⟨rfl, rfl⟩
  · have hgap := hp.number_gap hm hr hg hlm hlr
    have hg0 := hg.number_bounds.1
    exact eq_of_mul_add (hz hp) hr.number_bounds.1 (by omega)

/-- Inverse, carries and gap of a modulus are no matter of choice. -/
theorem Proper.unique (h : Proper next m r p) (h' : Proper next' m r p) (hlen : p.length ≤ 5)
    (hg : InRange (next.limbs Layout.gap)) (hg' : InRange (next'.limbs Layout.gap)) :
    next.get Layout.modulusInverse = next'.get Layout.modulusInverse ∧
      (next.limbs Layout.productCarry).take (p.length - 1) =
        (next'.limbs Layout.productCarry).take (p.length - 1) ∧
      next.limbs Layout.gap = next'.limbs Layout.gap := by
  have hcarry (s : Row) :
      ((s.limbs Layout.productCarry).take (p.length - 1)).length = p.length - 1 := by
    rw [List.length_take, Row.length_limbs]
    exact min_eq_left (Nat.sub_le_of_le_add hlen)
  have hlgap (s : Row) : (s.limbs Layout.gap).length = 2 := by
    rw [Row.length_limbs]
    rfl
  refine ⟨?_, ?_, ?_⟩
  · exact mul_left_cancel₀ h.ne_zero (h.inverse.trans h'.inverse.symm)
  · refine Carry.eq_of_vanish ((hcarry next).trans (hcarry next').symm) ?_ h.carries h'.carries
    rw [hcarry]
    exact Nat.sub_le _ _
  · have hvalue : number (next.limbs Layout.gap) = number (next'.limbs Layout.gap) := by
      apply Limb.eq_of_ofInt_eq (hg.word_bounds (hlgap next)) (hg'.word_bounds (hlgap next'))
      rw [Limb.ofInt_number, Limb.ofInt_number, ← h.gap, h'.gap]
    exact (hg.eq_cells_of_number (hlgap next) hvalue).trans
      (hg'.eq_cells_of_number (hlgap next') rfl).symm

end Remainder
end WordTrace

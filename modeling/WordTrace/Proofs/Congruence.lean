import Mathlib.Data.Int.ModEq
import WordTrace.Proofs.Carry

/-! # Sums and products as far as their limbs reach

The carries of a sum end with the shortest of its lists, and those of a product after two limbs at
the latest. Up to there they exist if and only if the sum or the product is right modulo the power
of the base that is reached.
-/

namespace WordTrace
namespace Limb

/-- The limbs cut off make up a multiple of the power of the base that the limbs kept reach. -/
theorem value_take_modEq (xs : List ℤ) (k : ℕ) : value (xs.take k) ≡ value xs [ZMOD base ^ k] := by
  induction xs generalizing k with
  | nil => simp
  | cons x xs ih =>
    cases k with
    | zero => exact Int.modEq_one
    | succ k =>
      rw [List.take_succ_cons, value_cons, value_cons, pow_succ']
      exact (ih k).mul_left'.add_left x

theorem value_zipWith_sub (p q : List ℤ) : value (List.zipWith (· - ·) p q) =
    value (p.take (min p.length q.length)) - value (q.take (min p.length q.length)) := by
  rw [List.zipWith_eq_zipWith_take_min, ← LimbPoly.difference_eq_zipWith (by simp),
    LimbPoly.value_difference]

theorem value_take_zipWith_add {x y : List ℤ} {k : ℕ} (hk : k ≤ min x.length y.length) :
    value ((List.zipWith (· + ·) x y).take k) = value (x.take k) + value (y.take k) := by
  rw [List.take_zipWith, ← LimbPoly.sum_eq_zipWith (by simp; omega), LimbPoly.value_sum]

end Limb

namespace Carry
open Limb (base)

/-- As far as both reach, two lists settle against each other if and only if their values agree
modulo that power of the base. -/
theorem settle_zipWith_sub {p q : List ℤ} {k : ℕ} (hk : min p.length q.length = k) :
    settle 0 (List.zipWith (· - ·) p q) =
      if Limb.value (p.take k) ≡ Limb.value (q.take k) [ZMOD base ^ k] then
        some (quotients 0 (List.zipWith (· - ·) p q)) else none := by
  have hdvd : base ^ (List.zipWith (· - ·) p q).length ∣
        0 + Limb.value (List.zipWith (· - ·) p q) ↔
      Limb.value (p.take k) ≡ Limb.value (q.take k) [ZMOD base ^ k] := by
    rw [List.length_zipWith, zero_add, Limb.value_zipWith_sub, hk, Int.modEq_comm,
      Int.modEq_iff_dvd]
  simp only [settle_eq, hdvd]

/-! Sums. -/

/-- The lowest limbs that all three lists have. -/
def reach (x y z : List ℤ) : ℕ := min (min x.length y.length) z.length

/-- As far as the lists reach `x + y` agrees with `z`, up to a carry out of the limbs. -/
def SumCongruent (x y z : List ℤ) : Prop :=
  Limb.value (x.take (reach x y z)) + Limb.value (y.take (reach x y z)) ≡
    Limb.value (z.take (reach x y z)) [ZMOD base ^ reach x y z]

instance (x y z : List ℤ) : Decidable (SumCongruent x y z) :=
  inferInstanceAs (Decidable (_ ≡ _ [ZMOD _]))

theorem length_excess (x y z : List ℤ) :
    (List.zipWith (· - ·) (List.zipWith (· + ·) x y) z).length = reach x y z := by
  rw [List.length_zipWith, List.length_zipWith, reach]

theorem value_excess (x y z : List ℤ) :
    Limb.value (List.zipWith (· - ·) (List.zipWith (· + ·) x y) z) =
      Limb.value (x.take (reach x y z)) + Limb.value (y.take (reach x y z)) -
        Limb.value (z.take (reach x y z)) := by
  rw [Limb.value_zipWith_sub, List.length_zipWith, Limb.value_take_zipWith_add (min_le_left ..)]
  rfl

theorem ofSum_eq (x y z : List ℤ) : ofSum x y z =
    if SumCongruent x y z then
      .ok (quotients 0 (List.zipWith (· - ·) (List.zipWith (· + ·) x y) z))
    else .error (.brokenSum x y z) := by
  have hreach : reach x y z ≤ min x.length y.length := min_le_left ..
  rw [ofSum, settle_zipWith_sub (k := reach x y z) (by rw [List.length_zipWith, reach]),
    Limb.value_take_zipWith_add hreach]
  by_cases h : SumCongruent x y z
  · rw [if_pos h, if_pos (show _ ≡ _ [ZMOD _] from h)]
  · rw [if_neg h, if_neg (show ¬_ ≡ _ [ZMOD _] from h)]

theorem ofSum_eq_ok_iff {x y z c : List ℤ} : ofSum x y z = .ok c ↔ SumCongruent x y z ∧
    c = quotients 0 (List.zipWith (· - ·) (List.zipWith (· + ·) x y) z) := by
  rw [ofSum_eq]
  split_ifs with h <;> simp [h, eq_comm]

/-- The last carry is what the limbs of the sum do not hold. -/
theorem value_eq_of_ofSum {x y z c : List ℤ} (h : ofSum x y z = .ok c) :
    Limb.value (x.take (reach x y z)) + Limb.value (y.take (reach x y z)) =
      Limb.value (z.take (reach x y z)) + c.getLastD 0 * base ^ reach x y z := by
  obtain ⟨hcongruent, rfl⟩ := ofSum_eq_ok_iff.mp h
  have hdvd : base ^ reach x y z ∣ 0 + (Limb.value (x.take (reach x y z)) +
      Limb.value (y.take (reach x y z)) - Limb.value (z.take (reach x y z))) := by
    rw [zero_add]
    exact hcongruent.symm.dvd
  rw [← value_excess, ← length_excess] at hdvd
  have hlast := add_value_eq_mul_last hdvd
  rw [value_excess, length_excess] at hlast
  linarith

theorem binary_of_ofSum {x y z c : List ℤ} (h : ofSum x y z = .ok c)
    (hlimbs : ∀ v ∈ x ++ y ++ z, 0 ≤ v ∧ v < base) : ∀ q ∈ c, q = 0 ∨ q = 1 := by
  obtain ⟨hcongruent, rfl⟩ := ofSum_eq_ok_iff.mp h
  obtain ⟨hxy, hz⟩ := List.forall_mem_append.mp hlimbs
  obtain ⟨hx, hy⟩ := List.forall_mem_append.mp hxy
  refine quotients_binary (.inl rfl) (excess_bounds hx hy hz) ?_
  rw [zero_add, value_excess, length_excess]
  exact hcongruent.symm.dvd

/-! Products. -/

/-- The lowest two limbs of a product, or as many as it and the output have. -/
def productReach (left right output : List ℤ) : ℕ :=
  min (min 2 (left.length + right.length - 1)) output.length

/-- As far as the limbs reach `left * right` agrees with `output`. -/
def ProductCongruent (left right output : List ℤ) : Prop :=
  Limb.value left * Limb.value right ≡
    Limb.value (output.take (productReach left right output))
      [ZMOD base ^ productReach left right output]

instance (left right output : List ℤ) : Decidable (ProductCongruent left right output) :=
  inferInstanceAs (Decidable (_ ≡ _ [ZMOD _]))

theorem ofProduct_eq {left right : List ℤ} (hl : left ≠ []) (hr : right ≠ []) (output : List ℤ) :
    ofProduct left right output =
      if ProductCongruent left right output then
        .ok (quotients 0
          (List.zipWith (· - ·) ((LimbPoly.product left right).take 2) output))
      else .error (.brokenProduct left right output) := by
  have hlen : min ((LimbPoly.product left right).take 2).length output.length =
      productReach left right output := by
    rw [List.length_take, LimbPoly.length_product hl hr, productReach]
  have hvalue : Limb.value (((LimbPoly.product left right).take 2).take
        (productReach left right output)) ≡ Limb.value left * Limb.value right
      [ZMOD base ^ productReach left right output] := by
    have hreach : productReach left right output ≤ 2 := (min_le_left ..).trans (min_le_left ..)
    rw [List.take_take, min_eq_left hreach, ← LimbPoly.value_product]
    exact Limb.value_take_modEq _ _
  rw [ofProduct_of_ne_nil hl hr, settle_zipWith_sub hlen]
  by_cases h : ProductCongruent left right output
  · rw [if_pos h, if_pos (hvalue.trans h)]
  · rw [if_neg h, if_neg fun h' => h (hvalue.symm.trans h')]

theorem ofProduct_eq_ok_iff {left right output c : List ℤ} (hl : left ≠ []) (hr : right ≠ []) :
    ofProduct left right output = .ok c ↔ ProductCongruent left right output ∧
      c = quotients 0 (List.zipWith (· - ·) ((LimbPoly.product left right).take 2) output) := by
  rw [ofProduct_eq hl hr]
  split_ifs with h <;> simp [h, eq_comm]

theorem length_ofProduct {left right output c : List ℤ} (hl : left ≠ []) (hr : right ≠ [])
    (h : ofProduct left right output = .ok c) : c.length = productReach left right output := by
  obtain ⟨-, rfl⟩ := (ofProduct_eq_ok_iff hl hr).mp h
  rw [length_quotients, List.length_zipWith, List.length_take, LimbPoly.length_product hl hr,
    productReach]

/-- Carries are found for exactly those sums and products that are right as far as the limbs reach,
and those of a sum of limbs in range are bits. -/
theorem carries_iff_congruent :
    (∀ x y z : List ℤ,
      ((∃ c, ofSum x y z = .ok c) ↔ SumCongruent x y z) ∧
      (∀ c, ofSum x y z = .ok c →
        c.length = reach x y z ∧
        Limb.value (x.take (reach x y z)) + Limb.value (y.take (reach x y z)) =
          Limb.value (z.take (reach x y z)) + c.getLastD 0 * base ^ reach x y z ∧
        ((∀ v ∈ x ++ y ++ z, 0 ≤ v ∧ v < base) → ∀ q ∈ c, q = 0 ∨ q = 1)) ∧
      (¬SumCongruent x y z → ofSum x y z = .error (.brokenSum x y z))) ∧
    ∀ left right output : List ℤ, left ≠ [] → right ≠ [] →
      ((∃ c, ofProduct left right output = .ok c) ↔ ProductCongruent left right output) ∧
      (∀ c, ofProduct left right output = .ok c →
        c.length = productReach left right output ∧
        c = quotients 0 (List.zipWith (· - ·) ((LimbPoly.product left right).take 2) output)) ∧
      (¬ProductCongruent left right output →
        ofProduct left right output = .error (.brokenProduct left right output)) := by
  constructor
  · intro x y z
    refine ⟨⟨?_, ?_⟩, fun c hc => ⟨?_, value_eq_of_ofSum hc, binary_of_ofSum hc⟩, fun h => ?_⟩
    · rintro ⟨c, hc⟩
      exact (ofSum_eq_ok_iff.mp hc).1
    · intro h
      exact ⟨_, ofSum_eq_ok_iff.mpr ⟨h, rfl⟩⟩
    · rw [(ofSum_eq_ok_iff.mp hc).2, length_quotients, length_excess]
    · rw [ofSum_eq, if_neg h]
  · intro left right output hl hr
    refine ⟨⟨?_, ?_⟩, fun c hc => ⟨length_ofProduct hl hr hc, ?_⟩, fun h => ?_⟩
    · rintro ⟨c, hc⟩
      exact ((ofProduct_eq_ok_iff hl hr).mp hc).1
    · intro h
      exact ⟨_, (ofProduct_eq_ok_iff hl hr).mpr ⟨h, rfl⟩⟩
    · exact ((ofProduct_eq_ok_iff hl hr).mp hc).2
    · rw [ofProduct_eq hl hr, if_neg h]

/-- The sum ends before the limb `9`, and the limb `8` of the output is not looked at. -/
theorem carries_iff_congruent_shortest :
    (∃ c, ofSum [65535, 65535, 9] [1, 0] [0, 0] = .ok c ∧ c.length = 2 ∧
      Limb.value [65535, 65535] + Limb.value [1, 0] = Limb.value [0, 0] + c.getLastD 0 * base ^ 2 ∧
      ∀ q ∈ c, q = 0 ∨ q = 1) ∧
    (∃ c, ofProduct [3, -70000] [5] [-65521, 43217, 8] = .ok c ∧ c.length = 2 ∧ c = [1, -6]) ∧
    ofProduct [3, -70000] [5] [15, 0, 8] =
      .error (.brokenProduct [3, -70000] [5] [15, 0, 8]) := by
  obtain ⟨hiff, hok, -⟩ := carries_iff_congruent.1 [65535, 65535, 9] [1, 0] [0, 0]
  obtain ⟨hiff', hok', -⟩ := carries_iff_congruent.2 [3, -70000] [5] [-65521, 43217, 8]
    (by decide) (by decide)
  obtain ⟨-, -, herror⟩ := carries_iff_congruent.2 [3, -70000] [5] [15, 0, 8]
    (by decide) (by decide)
  obtain ⟨c, hc⟩ := hiff.mpr (by decide)
  obtain ⟨d, hd⟩ := hiff'.mpr (by decide)
  obtain ⟨hlength, hvalue, hbits⟩ := hok c hc
  obtain ⟨hlength', hcarries⟩ := hok' d hd
  have hd' : d = [1, -6] := hcarries.trans (by decide)
  exact ⟨⟨c, hc, hlength, hvalue, hbits (by decide)⟩, ⟨d, hd, hlength', hd'⟩, herror (by decide)⟩

end Carry
end WordTrace

import WordTrace.Proofs.Limb

/-! # Evaluation, reduction and size of limb polynomials

Sums, differences and products of coefficient lists are those of the values at any point, they
commute with the reduction of integers into the field, and their coefficients stay small.
-/

namespace WordTrace.LimbPoly

section Evaluation
variable {R : Type} [CommRing R]

/-- The value of a polynomial at a point. -/
def eval (t : R) : List R → R
  | [] => 0
  | x :: xs => x + t * eval t xs

@[simp] theorem eval_nil (t : R) : eval t [] = 0 := rfl
@[simp] theorem eval_cons (t x : R) (xs : List R) : eval t (x :: xs) = x + t * eval t xs := rfl

@[simp] theorem sum_nil_left (b : List R) : sum [] b = b := by cases b <;> rfl
@[simp] theorem sum_nil_right (a : List R) : sum a [] = a := by cases a <;> rfl
@[simp] theorem difference_nil_left (b : List R) : difference [] b = b.map (- ·) := by
  cases b <;> rfl
@[simp] theorem difference_nil_right (a : List R) : difference a [] = a := by cases a <;> rfl
@[simp] theorem product_nil_left (b : List R) : product [] b = [] := by cases b <;> rfl
@[simp] theorem product_nil_right (a : List R) : product a [] = [] := by cases a <;> rfl

theorem eval_map_neg (t : R) (b : List R) : eval t (b.map (- ·)) = -eval t b := by
  induction b with
  | nil => simp
  | cons y b ih =>
    rw [List.map_cons, eval_cons, eval_cons, ih]
    ring

theorem eval_map_mul (t x : R) (b : List R) : eval t (b.map (x * ·)) = x * eval t b := by
  induction b with
  | nil => simp
  | cons y b ih =>
    rw [List.map_cons, eval_cons, eval_cons, ih]
    ring

theorem eval_sum (t : R) (a b : List R) : eval t (sum a b) = eval t a + eval t b := by
  induction a generalizing b with
  | nil => simp
  | cons x a ih =>
    cases b with
    | nil => simp
    | cons y b =>
      rw [sum, eval_cons, eval_cons, eval_cons, ih]
      ring

theorem eval_difference (t : R) (a b : List R) :
    eval t (difference a b) = eval t a - eval t b := by
  induction a generalizing b with
  | nil => simp [eval_map_neg]
  | cons x a ih =>
    cases b with
    | nil => simp
    | cons y b =>
      rw [difference, eval_cons, eval_cons, eval_cons, ih]
      ring

theorem eval_product (t : R) (a b : List R) : eval t (product a b) = eval t a * eval t b := by
  induction a with
  | nil => simp
  | cons x a ih =>
    cases b with
    | nil => simp
    | cons y b =>
      rw [product, eval_cons, eval_sum, eval_map_mul, ih, eval_cons, eval_cons]
      ring

@[simp] theorem length_sum (a b : List R) : (sum a b).length = max a.length b.length := by
  induction a generalizing b with
  | nil => simp
  | cons x a ih => cases b <;> simp [sum, ih]

@[simp] theorem length_difference (a b : List R) :
    (difference a b).length = max a.length b.length := by
  induction a generalizing b with
  | nil => simp
  | cons x a ih => cases b <;> simp [difference, ih]

theorem length_product {a b : List R} (ha : a ≠ []) (hb : b ≠ []) :
    (product a b).length = a.length + b.length - 1 := by
  obtain ⟨y, b, rfl⟩ := List.exists_cons_of_ne_nil hb
  induction a with
  | nil => exact absurd rfl ha
  | cons x a ih =>
    cases a with
    | nil => simp [product]
    | cons z a =>
      have hlen := ih (List.cons_ne_nil z a)
      simp only [product, List.length_cons, length_sum, List.length_map] at hlen ⊢
      omega

/-- With a coefficient in both factors every coefficient of the product is reached. -/
theorem Partial.product_of_ne_nil {a b : List R} (ha : a ≠ []) (hb : b ≠ []) :
    Partial.product a b = (LimbPoly.product a b).map some := by
  simp [Partial.product, ha, hb]

theorem difference_eq_map_neg (a b : List R) : difference a b = (difference b a).map (- ·) := by
  induction a generalizing b with
  | nil => simp
  | cons x a ih =>
    cases b with
    | nil => simp
    | cons y b => rw [difference, difference, List.map_cons, ih, neg_sub]

theorem sum_comm (a b : List R) : sum a b = sum b a := by
  induction a generalizing b with
  | nil => simp
  | cons x a ih =>
    cases b with
    | nil => simp
    | cons y b => rw [sum, sum, ih, add_comm]

theorem difference_map_neg (a b : List R) : difference a (b.map (- ·)) = sum a b := by
  induction a generalizing b with
  | nil => simp
  | cons x a ih =>
    cases b with
    | nil => simp
    | cons y b => rw [List.map_cons, difference, sum, ih, sub_neg_eq_add]

/-! Polynomials of one length can be told apart after adding or subtracting another. -/

theorem difference_left_cancel {a b c : List R} (hlen : a.length = b.length)
    (h : difference a c = difference b c) : a = b := by
  induction c generalizing a b with
  | nil => simpa using h
  | cons z c ih =>
    cases a with
    | nil => exact (List.eq_nil_of_length_eq_zero hlen.symm).symm
    | cons x a =>
      obtain ⟨y, b, rfl⟩ := List.exists_cons_of_length_eq_add_one hlen.symm
      rw [difference, difference, List.cons.injEq, sub_left_inj] at h
      rw [h.1, ih (by simpa using hlen) h.2]

theorem difference_right_cancel {a b c : List R} (hlen : a.length = b.length)
    (h : difference c a = difference c b) : a = b := by
  rw [difference_eq_map_neg c a, difference_eq_map_neg c b] at h
  exact difference_left_cancel hlen (List.map_injective_iff.mpr neg_injective h)

theorem sum_left_cancel {a b c : List R} (hlen : a.length = b.length) (h : sum a c = sum b c) :
    a = b := by
  rw [← difference_map_neg, ← difference_map_neg] at h
  exact difference_left_cancel hlen h

theorem sum_eq_zipWith {a b : List R} (h : a.length = b.length) :
    sum a b = List.zipWith (· + ·) a b := by
  induction a generalizing b with
  | nil => simp [List.eq_nil_of_length_eq_zero h.symm]
  | cons x a ih =>
    obtain ⟨y, b, rfl⟩ := List.exists_cons_of_length_eq_add_one h.symm
    rw [sum, ih (by simpa using h), List.zipWith_cons_cons]

theorem difference_eq_zipWith {a b : List R} (h : a.length = b.length) :
    difference a b = List.zipWith (· - ·) a b := by
  induction a generalizing b with
  | nil => simp [List.eq_nil_of_length_eq_zero h.symm]
  | cons x a ih =>
    obtain ⟨y, b, rfl⟩ := List.exists_cons_of_length_eq_add_one h.symm
    rw [difference, ih (by simpa using h), List.zipWith_cons_cons]

theorem getD_sum (a b : List R) (k : ℕ) : (sum a b).getD k 0 = a.getD k 0 + b.getD k 0 := by
  induction a generalizing b k with
  | nil => simp
  | cons x a ih =>
    cases b with
    | nil => simp
    | cons y b =>
      cases k with
      | zero => simp [sum]
      | succ k => simpa only [sum, List.getD_cons_succ] using ih b k

theorem product_one (c : List R) : product [1] c = c := by
  cases c with
  | nil => rfl
  | cons y c => simp [product]

/-- A binomial with leading coefficient one adds a multiple of the other factor to its shift. -/
theorem product_binomial {c : List R} (hc : c ≠ []) (a : R) :
    product [a, 1] c = sum (c.map (a * ·)) (0 :: c) := by
  obtain ⟨y, c, rfl⟩ := List.exists_cons_of_ne_nil hc
  rw [product, product_one, List.map_cons, sum, add_zero]

end Evaluation

/-! Values of limbs are values at the base. -/

theorem value_eq_eval (xs : List ℤ) : Limb.value xs = eval Limb.base xs := by
  induction xs with
  | nil => rfl
  | cons x xs ih => rw [Limb.value_cons, eval_cons, ih]

theorem valueFelt_eq_eval (xs : List Felt) : Limb.valueFelt xs = eval Limb.baseFelt xs := by
  induction xs with
  | nil => rfl
  | cons x xs ih => rw [Limb.valueFelt_cons, eval_cons, ih]

@[simp] theorem value_sum (a b : List ℤ) :
    Limb.value (sum a b) = Limb.value a + Limb.value b := by
  simp only [value_eq_eval, eval_sum]

@[simp] theorem value_difference (a b : List ℤ) :
    Limb.value (difference a b) = Limb.value a - Limb.value b := by
  simp only [value_eq_eval, eval_difference]

@[simp] theorem value_product (a b : List ℤ) :
    Limb.value (product a b) = Limb.value a * Limb.value b := by
  simp only [value_eq_eval, eval_product]

@[simp] theorem valueFelt_sum (a b : List Felt) :
    Limb.valueFelt (sum a b) = Limb.valueFelt a + Limb.valueFelt b := by
  simp only [valueFelt_eq_eval, eval_sum]

@[simp] theorem valueFelt_difference (a b : List Felt) :
    Limb.valueFelt (difference a b) = Limb.valueFelt a - Limb.valueFelt b := by
  simp only [valueFelt_eq_eval, eval_difference]

@[simp] theorem valueFelt_product (a b : List Felt) :
    Limb.valueFelt (product a b) = Limb.valueFelt a * Limb.valueFelt b := by
  simp only [valueFelt_eq_eval, eval_product]

/-! Reduction into the field. -/

theorem sum_map_ofInt (a b : List ℤ) :
    sum (a.map Felt.ofInt) (b.map Felt.ofInt) = (sum a b).map Felt.ofInt := by
  induction a generalizing b with
  | nil => simp
  | cons x a ih => cases b <;> simp [sum, ih]

theorem difference_map_ofInt (a b : List ℤ) :
    difference (a.map Felt.ofInt) (b.map Felt.ofInt) = (difference a b).map Felt.ofInt := by
  induction a generalizing b with
  | nil => simp
  | cons x a ih => cases b <;> simp [difference, ih]

theorem product_map_ofInt (a b : List ℤ) :
    product (a.map Felt.ofInt) (b.map Felt.ofInt) = (product a b).map Felt.ofInt := by
  induction a with
  | nil => simp
  | cons x a ih =>
    cases b with
    | nil => simp
    | cons y b =>
      have hscale : (b.map Felt.ofInt).map (Felt.ofInt x * ·) = (b.map (x * ·)).map Felt.ofInt := by
        simp
      simp only [List.map_cons] at ih ⊢
      simp only [product, List.map_cons, ih, hscale, sum_map_ofInt, Felt.ofInt_mul]

/-! Size of coefficients. -/

/-- No coefficient exceeds the bound in magnitude. -/
def Bounded (k : ℕ) (xs : List ℤ) : Prop := ∀ x ∈ xs, x.natAbs ≤ k

theorem bounded_cons {k : ℕ} {x : ℤ} {xs : List ℤ} :
    Bounded k (x :: xs) ↔ x.natAbs ≤ k ∧ Bounded k xs := List.forall_mem_cons

theorem Bounded.mono {k l : ℕ} {xs : List ℤ} (h : Bounded k xs) (hkl : k ≤ l) : Bounded l xs :=
  fun x hx => (h x hx).trans hkl

theorem bounded_digits (n : ℕ) (z : ℤ) : Bounded 65535 (Limb.digits n z) := by
  intro x hx
  have hlt := Limb.abs_lt_of_mem_digits hx
  rw [abs_lt] at hlt
  simp only [Limb.base] at hlt
  omega

theorem Bounded.neg {k : ℕ} {xs : List ℤ} (h : Bounded k xs) : Bounded k (xs.map (- ·)) := by
  intro z hz
  obtain ⟨x, hx, rfl⟩ := List.mem_map.mp hz
  exact (Int.natAbs_neg x).le.trans (h x hx)

theorem Bounded.take {k : ℕ} {xs : List ℤ} (h : Bounded k xs) (n : ℕ) : Bounded k (xs.take n) :=
  fun x hx => h x (List.mem_of_mem_take hx)

theorem Bounded.sum {k l : ℕ} {a b : List ℤ} (ha : Bounded k a) (hb : Bounded l b) :
    Bounded (k + l) (sum a b) := by
  induction a generalizing b with
  | nil => simpa using hb.mono (Nat.le_add_left l k)
  | cons x a ih =>
    cases b with
    | nil => simpa using ha.mono (Nat.le_add_right k l)
    | cons y b =>
      obtain ⟨hx, ha⟩ := bounded_cons.mp ha
      obtain ⟨hy, hb⟩ := bounded_cons.mp hb
      exact bounded_cons.mpr ⟨(Int.natAbs_add_le x y).trans (Nat.add_le_add hx hy), ih ha hb⟩

theorem Bounded.difference {k l : ℕ} {a b : List ℤ} (ha : Bounded k a) (hb : Bounded l b) :
    Bounded (k + l) (difference a b) := by
  induction a generalizing b with
  | nil => simpa using hb.neg.mono (Nat.le_add_left l k)
  | cons x a ih =>
    cases b with
    | nil => simpa using ha.mono (Nat.le_add_right k l)
    | cons y b =>
      obtain ⟨hx, ha⟩ := bounded_cons.mp ha
      obtain ⟨hy, hb⟩ := bounded_cons.mp hb
      exact bounded_cons.mpr ⟨(Int.natAbs_sub_le x y).trans (Nat.add_le_add hx hy), ih ha hb⟩

/-- Every coefficient of a product sums at most one term for each coefficient of the first
factor. -/
theorem Bounded.product {k l : ℕ} {a b : List ℤ} (ha : Bounded k a) (hb : Bounded l b) :
    Bounded (a.length * (k * l)) (product a b) := by
  induction a with
  | nil => simp [Bounded]
  | cons x a ih =>
    cases b with
    | nil => simp [Bounded]
    | cons y b =>
      obtain ⟨hx, ha⟩ := bounded_cons.mp ha
      have hterm (z : ℤ) (hz : z.natAbs ≤ l) : (x * z).natAbs ≤ k * l := by
        rw [Int.natAbs_mul]
        exact Nat.mul_le_mul hx hz
      have hscale : Bounded (k * l) (b.map (x * ·)) := by
        intro w hw
        obtain ⟨z, hz, rfl⟩ := List.mem_map.mp hw
        exact hterm z (hb z (List.mem_cons_of_mem y hz))
      have hlen : (x :: a).length * (k * l) = k * l + a.length * (k * l) := by
        rw [List.length_cons]
        ring
      rw [hlen]
      exact bounded_cons.mpr ⟨(hterm y (hb y (List.mem_cons_self ..))).trans (Nat.le_add_right ..),
        hscale.sum (ih ha)⟩

/-- No coefficient is negative. -/
def Nonneg (xs : List ℤ) : Prop := ∀ x ∈ xs, 0 ≤ x

theorem nonneg_cons {x : ℤ} {xs : List ℤ} : Nonneg (x :: xs) ↔ 0 ≤ x ∧ Nonneg xs :=
  List.forall_mem_cons

theorem nonneg_digits (n : ℕ) {z : ℤ} (hz : 0 ≤ z) : Nonneg (Limb.digits n z) :=
  fun _ hx => Limb.nonneg_of_mem_digits hz hx

theorem Nonneg.sum {a b : List ℤ} (ha : Nonneg a) (hb : Nonneg b) : Nonneg (sum a b) := by
  induction a generalizing b with
  | nil => simpa using hb
  | cons x a ih =>
    cases b with
    | nil => simpa using ha
    | cons y b =>
      obtain ⟨hx, ha⟩ := nonneg_cons.mp ha
      obtain ⟨hy, hb⟩ := nonneg_cons.mp hb
      exact nonneg_cons.mpr ⟨add_nonneg hx hy, ih ha hb⟩

theorem Nonneg.product {a b : List ℤ} (ha : Nonneg a) (hb : Nonneg b) : Nonneg (product a b) := by
  induction a with
  | nil => simp [Nonneg]
  | cons x a ih =>
    cases b with
    | nil => simp [Nonneg]
    | cons y b =>
      obtain ⟨hx, ha⟩ := nonneg_cons.mp ha
      have hscale : Nonneg (b.map (x * ·)) := by
        intro w hw
        obtain ⟨z, hz, rfl⟩ := List.mem_map.mp hw
        exact mul_nonneg hx (hb z (List.mem_cons_of_mem y hz))
      exact nonneg_cons.mpr ⟨mul_nonneg hx (hb y (List.mem_cons_self ..)), hscale.sum (ih ha)⟩

/-- Coefficients of one sign do not add up when they are subtracted. -/
theorem Bounded.difference_of_nonneg {k : ℕ} {a b : List ℤ} (ha : Bounded k a) (hb : Bounded k b)
    (ha0 : Nonneg a) (hb0 : Nonneg b) : Bounded k (LimbPoly.difference a b) := by
  induction a generalizing b with
  | nil => simpa using hb.neg
  | cons x a ih =>
    cases b with
    | nil => simpa using ha
    | cons y b =>
      obtain ⟨hx, ha⟩ := bounded_cons.mp ha
      obtain ⟨hy, hb⟩ := bounded_cons.mp hb
      obtain ⟨hx0, ha0⟩ := nonneg_cons.mp ha0
      obtain ⟨hy0, hb0⟩ := nonneg_cons.mp hb0
      exact bounded_cons.mpr ⟨by omega, ih ha hb ha0 hb0⟩

end WordTrace.LimbPoly

import WordTrace.Proofs.Recording

/-! # Terms, coefficients and values

Gathering a product term by term, on coefficients that start out unset, sets every one of them when
both factors have a coefficient. Once they are set, taking values at the base and reducing into the
field commute with every operation on limb polynomials, and so the polynomials of divisions and
residues have the values they are named for.
-/

namespace WordTrace
namespace LimbPoly.Partial

section Definitions
variable {α : Type} [Add α] [Mul α]

/-- The first term to reach a coefficient sets it, later ones are added. -/
def reach (term : α) : Option α → Option α
  | none => some term
  | some x => some (x + term)

/-- A term for each coefficient, as far as both lists go. -/
def reachEach : List (Option α) → List α → List (Option α)
  | c :: p, x :: xs => reach x c :: reachEach p xs
  | p, _ => p

/-- The terms of `x` with all of `b`, the lowest of them at place `i`. -/
def addRow (x : α) (i : ℕ) (b : List α) (p : List (Option α)) : List (Option α) :=
  (b.zipIdx i).foldl (fun p y => p.modify y.2 (reach (x * y.1))) p

/-- The rows of `a`, the lowest of them at place `i`. -/
def addRows (i : ℕ) (a b : List α) (p : List (Option α)) : List (Option α) :=
  (a.zipIdx i).foldl (fun p x => addRow x.1 x.2 b p) p

/-- The product as one pair of terms after another builds it up. -/
def termwise (a b : List α) : List (Option α) :=
  addRows 0 a b (List.replicate (a.length + b.length - 1) none)

end Definitions

section Terms
variable {R : Type} [CommRing R]

@[simp] theorem reachEach_nil_right (p : List (Option R)) : reachEach p [] = p := by
  cases p <;> rfl

@[simp] theorem length_reachEach (p : List (Option R)) (xs : List R) :
    (reachEach p xs).length = p.length := by
  induction p generalizing xs with
  | nil => rfl
  | cons c p ih => cases xs <;> simp [reachEach, ih]

theorem reach_reach (x y : R) (c : Option R) : reach y (reach x c) = reach (x + y) c := by
  cases c with
  | none => rfl
  | some z => rw [reach, reach, reach, add_assoc]

/-- Terms that come one list after the other come to the sum of the lists. -/
theorem reachEach_reachEach (p : List (Option R)) (xs ys : List R) :
    reachEach (reachEach p xs) ys = reachEach p (LimbPoly.sum xs ys) := by
  induction p generalizing xs ys with
  | nil => rfl
  | cons c p ih =>
    cases xs with
    | nil => simp
    | cons x xs =>
      cases ys with
      | nil => simp
      | cons y ys => rw [reachEach, reachEach, reach_reach, ih, LimbPoly.sum, reachEach]

theorem reachEach_replicate_none (xs : List R) :
    reachEach (List.replicate xs.length none) xs = xs.map some := by
  induction xs with
  | nil => rfl
  | cons x xs ih => rw [List.length_cons, List.replicate_succ, reachEach, ih, reach, List.map_cons]

theorem modify_append_cons (below above : List (Option R)) (c : Option R) (x : R) :
    (below ++ c :: above).modify below.length (reach x) = below ++ reach x c :: above := by
  rw [List.modify_eq_take_drop, List.take_left, List.drop_left, List.modifyHead_cons]

/-- A row leaves the coefficients below it alone. -/
theorem addRow_append (x : R) {b : List R} (below : List (Option R)) {p : List (Option R)}
    (h : b.length ≤ p.length) :
    addRow x below.length b (below ++ p) = below ++ reachEach p (b.map (x * ·)) := by
  induction b generalizing below p with
  | nil => simp [addRow]
  | cons y b ih =>
    rw [List.length_cons] at h
    obtain ⟨c, p, rfl⟩ := List.exists_cons_of_length_pos (show 0 < p.length by omega)
    have hrest := ih (below ++ [reach (x * y) c]) (p := p) (by simpa using h)
    simp only [addRow, List.zipIdx_cons, List.foldl_cons, modify_append_cons] at hrest ⊢
    simpa [reachEach] using hrest

/-- Row after row gives the terms of the product, and the coefficients below are left alone. -/
theorem addRows_append {a b : List R} (hb : b ≠ []) (below : List (Option R))
    {p : List (Option R)} (h : a.length + b.length ≤ p.length + 1) :
    addRows below.length a b (below ++ p) = below ++ reachEach p (LimbPoly.product a b) := by
  obtain ⟨y, b, rfl⟩ := List.exists_cons_of_ne_nil hb
  induction a generalizing below p with
  | nil => simp [addRows]
  | cons x a ih =>
    rw [List.length_cons, List.length_cons] at h
    have hrow := addRow_append x (b := y :: b) below (p := p) (by rw [List.length_cons]; omega)
    obtain ⟨c, p, rfl⟩ := List.exists_cons_of_length_pos (show 0 < p.length by omega)
    have hrest := ih (below ++ [reach (x * y) c]) (p := reachEach p (b.map (x * ·)))
      (by simp only [length_reachEach, List.length_cons] at h ⊢; omega)
    simp only [addRows, List.zipIdx_cons, List.foldl_cons, hrow] at hrest ⊢
    simpa [reachEach, reachEach_reachEach, LimbPoly.product] using hrest

/-- Term by term or all at once, the same coefficients are set to the same values. -/
theorem termwise_eq_product (a b : List R) : termwise a b = product a b := by
  rcases eq_or_ne a [] with rfl | ha
  · simp [termwise, addRows, product]
  rcases eq_or_ne b [] with rfl | hb
  · have hrow (x : R) (i : ℕ) (p : List (Option R)) : addRow x i [] p = p := rfl
    simp [termwise, addRows, hrow, product]
  have hlen := length_product ha hb
  have hrows := addRows_append hb [] (p := List.replicate (a.length + b.length - 1) none)
    (a := a) (by rw [List.length_replicate]; omega)
  rw [List.nil_append, List.nil_append, List.length_nil] at hrows
  rw [termwise, hrows, ← hlen, reachEach_replicate_none, product_of_ne_nil ha hb]

end Terms

/-! Coefficients that are all set. -/

theorem sum_map_some (a b : List ℤ) :
    sum (a.map some) (b.map some) = .ok ((LimbPoly.sum a b).map some) := by
  induction a generalizing b with
  | nil => cases b <;> rfl
  | cons x a ih =>
    cases b with
    | nil => rfl
    | cons y b =>
      rw [List.map_cons, List.map_cons, sum, ih]
      rfl

theorem mapM_neg_map_some (b : List ℤ) :
    (b.map some).mapM neg = .ok ((b.map (- ·)).map some) := by
  induction b with
  | nil => rfl
  | cons y b ih =>
    rw [List.map_cons, List.mapM_cons, ih]
    rfl

theorem difference_map_some (a b : List ℤ) :
    difference (a.map some) (b.map some) = .ok ((LimbPoly.difference a b).map some) := by
  induction a generalizing b with
  | nil =>
    cases b with
    | nil => rfl
    | cons y b => exact mapM_neg_map_some (y :: b)
  | cons x a ih =>
    cases b with
    | nil => rfl
    | cons y b =>
      rw [List.map_cons, List.map_cons, difference, ih]
      rfl

end LimbPoly.Partial

namespace Division

theorem partialPolynomial_eq {b q : List ℤ} (hb : b ≠ []) (hq : q ≠ []) (a r : List ℤ) :
    partialPolynomial a b q r = .ok ((polynomial a b q r).map some) := by
  simp only [partialPolynomial, LimbPoly.Partial.product_of_ne_nil hb hq]
  rw [LimbPoly.Partial.sum_map_some]
  exact LimbPoly.Partial.difference_map_some _ _

end Division

namespace Residue

theorem partialPolynomial_eq (op : ResidueOp) {a b m q : List ℤ} (ha : a ≠ []) (hb : b ≠ [])
    (hm : m ≠ []) (hq : q ≠ []) (r : List ℤ) :
    partialPolynomial op.selector.val a b m r q = .ok ((polynomial op a b m r q).map some) := by
  have hexact : op.partialPolynomial a b = .ok ((op.polynomial a b).map some) := by
    cases op
    · exact LimbPoly.Partial.sum_map_some a b
    · exact congrArg Except.ok (LimbPoly.Partial.product_of_ne_nil ha hb)
    · exact LimbPoly.Partial.difference_map_some a b
  simp only [partialPolynomial, ResidueOp.ofSelector?_selector,
    LimbPoly.Partial.product_of_ne_nil hm hq]
  rw [LimbPoly.Partial.sum_map_some, hexact]
  exact LimbPoly.Partial.difference_map_some _ _

end Residue

namespace LimbPoly

/-- The polynomial `p` has the value `z`, and `q` is its reduction into the field, with the
reduction of `z` as its value. -/
structure Evaluates (p : List ℤ) (q : List Felt) (z : ℤ) : Prop where
  value_eq : Limb.value p = z
  reduced : q = p.map Felt.ofInt
  valueFelt_eq : Limb.valueFelt q = Felt.ofInt z

theorem Evaluates.intro {p : List ℤ} {q : List Felt} {z : ℤ} (hvalue : Limb.value p = z)
    (hreduced : q = p.map Felt.ofInt) : Evaluates p q z :=
  ⟨hvalue, hreduced, by rw [hreduced, Limb.valueFelt_map_ofInt, hvalue]⟩

theorem evaluates_product {a b : List ℤ} (ha : a ≠ []) (hb : b ≠ []) :
    ∃ p q, Partial.product a b = p.map some ∧
      Partial.product (a.map Felt.ofInt) (b.map Felt.ofInt) = q.map some ∧
      p.length = a.length + b.length - 1 ∧ Evaluates p q (Limb.value a * Limb.value b) := by
  have ha' : a.map Felt.ofInt ≠ [] := by simpa using ha
  have hb' : b.map Felt.ofInt ≠ [] := by simpa using hb
  exact ⟨_, _, Partial.product_of_ne_nil ha hb, Partial.product_of_ne_nil ha' hb',
    length_product ha hb, .intro (value_product a b) (product_map_ofInt a b)⟩

/-- The value of limbs commutes with reduction into the field, and both commute with sums,
differences and products of limbs. What divisions and residues put together from these has the
value that was put together. -/
theorem values_commute :
    (∀ a : List ℤ, Limb.valueFelt (a.map Felt.ofInt) = Felt.ofInt (Limb.value a)) ∧
    (∀ a b : List ℤ,
      Evaluates (sum a b) (sum (a.map Felt.ofInt) (b.map Felt.ofInt))
        (Limb.value a + Limb.value b) ∧
      Evaluates (difference a b) (difference (a.map Felt.ofInt) (b.map Felt.ofInt))
        (Limb.value a - Limb.value b) ∧
      Partial.product a b = Partial.termwise a b ∧
      Partial.product (a.map Felt.ofInt) (b.map Felt.ofInt) =
        Partial.termwise (a.map Felt.ofInt) (b.map Felt.ofInt)) ∧
    (∀ a b : List ℤ, a ≠ [] → b ≠ [] → ∃ p q, Partial.product a b = p.map some ∧
      Partial.product (a.map Felt.ofInt) (b.map Felt.ofInt) = q.map some ∧
      p.length = a.length + b.length - 1 ∧ Evaluates p q (Limb.value a * Limb.value b)) ∧
    (∀ dividend divisor quotient remainder : List ℤ, divisor ≠ [] → quotient ≠ [] →
      ∃ p, Division.partialPolynomial dividend divisor quotient remainder = .ok (p.map some) ∧
        Evaluates p (Division.polynomial (dividend.map Felt.ofInt) (divisor.map Felt.ofInt)
          (quotient.map Felt.ofInt) (remainder.map Felt.ofInt))
          (Limb.value divisor * Limb.value quotient + Limb.value remainder -
            Limb.value dividend)) ∧
    ∀ (op : ResidueOp) (a b modulus output quotient : List ℤ),
      a ≠ [] → b ≠ [] → modulus ≠ [] → quotient ≠ [] →
      ∃ p, Residue.partialPolynomial op.selector.val a b modulus output quotient =
          .ok (p.map some) ∧
        Evaluates p (Residue.polynomial op (a.map Felt.ofInt) (b.map Felt.ofInt)
          (modulus.map Felt.ofInt) (output.map Felt.ofInt) (quotient.map Felt.ofInt))
          (Limb.value modulus * Limb.value quotient + Limb.value output -
            op.exact (Limb.value a) (Limb.value b)) := by
  refine ⟨Limb.valueFelt_map_ofInt, fun a b => ⟨?_, ?_, ?_, ?_⟩, fun a b => evaluates_product,
    ?_, ?_⟩
  · exact .intro (value_sum a b) (sum_map_ofInt a b)
  · exact .intro (value_difference a b) (difference_map_ofInt a b)
  · exact (Partial.termwise_eq_product a b).symm
  · exact (Partial.termwise_eq_product _ _).symm
  · intro a b q r hb hq
    exact ⟨_, Division.partialPolynomial_eq hb hq a r,
      .intro (Division.value_polynomial a b q r) (Division.polynomial_map_ofInt a b q r)⟩
  · intro op a b m r q ha hb hm hq
    exact ⟨_, Residue.partialPolynomial_eq op ha hb hm hq r,
      .intro (Residue.value_polynomial op a b m r q) (Residue.polynomial_map_ofInt op a b m r q)⟩

/-- Limbs of either sign in lists of different lengths, and no remainder in the division. -/
theorem values_commute_signed :
    (∃ p q, Partial.product [3, -1] [-5, 0, 9] = p.map some ∧
      Partial.product ([3, -1].map Felt.ofInt) ([-5, 0, 9].map Felt.ofInt) = q.map some ∧
      p.length = 4 ∧ Evaluates p q (-2533158825951247)) ∧
    (∃ p, Division.partialPolynomial [7] [2, -1] [0, 3] [] = .ok (p.map some) ∧
      Evaluates p (Division.polynomial ([7].map Felt.ofInt) ([2, -1].map Felt.ofInt)
        ([0, 3].map Felt.ofInt) []) (-12884508679)) ∧
    ∃ p, Residue.partialPolynomial 10 [3, -1] [-5] [7, 2] [1] [-4, 0, 9] = .ok (p.map some) ∧
      Evaluates p (Residue.polynomial .mul ([3, -1].map Felt.ofInt) ([-5].map Felt.ofInt)
        ([7, 2].map Felt.ofInt) ([1].map Felt.ofInt) ([-4, 0, 9].map Felt.ofInt))
        5066820162879476 := by
  obtain ⟨-, -, hproduct, hdivision, hresidue⟩ := values_commute
  refine ⟨hproduct [3, -1] [-5, 0, 9] (by decide) (by decide), ?_, ?_⟩
  · exact hdivision [7] [2, -1] [0, 3] [] (by decide) (by decide)
  · exact hresidue .mul [3, -1] [-5] [7, 2] [1] [-4, 0, 9] (by decide) (by decide) (by decide)
      (by decide)

end LimbPoly
end WordTrace

import Mathlib.Algebra.Polynomial.OfFn
import Mathlib.Algebra.Polynomial.Roots
import Mathlib.RingTheory.SimpleRing.Principal
import WordTrace.Proofs.Recording
import WordTrace.Proofs.Verdict

/-! # A batch of identities misses few faults

Batching evaluates a polynomial whose coefficients are the values, at the challenge. Values that
vanish give zero for every challenge. Values of which one does not give a polynomial that is not
zero, and the challenges that miss it are among its roots, fewer than there are values.
-/

namespace WordTrace
open Polynomial

/-! Batching is evaluation. -/

theorem sum_weighted_cons (c v : Felt) (vs : List Felt) :
    ∑ i : Fin (v :: vs).length, (v :: vs)[i] * c ^ ((v :: vs).length - 1 - i) =
      v * c ^ vs.length + ∑ i : Fin vs.length, vs[i] * c ^ (vs.length - 1 - i) := by
  have hexponent (i : Fin vs.length) : vs.length - (i.succ : ℕ) = vs.length - 1 - i := by
    rw [Fin.val_succ]
    omega
  refine (Fin.sum_univ_succ _).trans ?_
  simp only [List.length_cons, Nat.add_sub_cancel, hexponent]
  simp only [Fin.getElem_fin, Fin.val_zero, Fin.val_succ, List.getElem_cons_zero,
    List.getElem_cons_succ, Nat.sub_zero]

theorem gather_eq_sum (c acc v : Felt) (vs : List Felt) :
    gather c acc v vs = acc * c ^ vs.length +
      ∑ i : Fin (v :: vs).length, (v :: vs)[i] * c ^ ((v :: vs).length - 1 - i) := by
  induction vs generalizing acc v with
  | nil => simp [gather]
  | cons u us ih =>
    have hpow : c ^ (u :: us).length = c * c ^ us.length := pow_succ' c us.length
    rw [gather, ih, sum_weighted_cons c v (u :: us), hpow]
    ring

/-- Every value stands for its coefficient, the last one for the constant. -/
theorem batch_eq_sum (c : Felt) {vs : List Felt} (h : vs ≠ []) :
    batch c vs = .ok (∑ i : Fin vs.length, vs[i] * c ^ (vs.length - 1 - i)) := by
  match vs, h with
  | [v], _ => simp [batch]
  | v :: u :: us, _ =>
    have hpow : c ^ (u :: us).length = c * c ^ us.length := pow_succ' c us.length
    rw [batch, gather_eq_sum, sum_weighted_cons c v (u :: us), hpow, mul_assoc]

/-- The polynomial that a batch evaluates. -/
noncomputable def batchPolynomial (vs : List Felt) : Felt[X] :=
  ofFn vs.length fun i => vs[i.rev]

theorem eval_batchPolynomial (c : Felt) (vs : List Felt) :
    (batchPolynomial vs).eval c = ∑ i : Fin vs.length, vs[i] * c ^ (vs.length - 1 - i) := by
  rw [batchPolynomial, ofFn_eq_sum_monomial, eval_finsetSum]
  refine (Equiv.sum_comp Fin.revPerm _).symm.trans (Finset.sum_congr rfl fun i _ => ?_)
  have hexponent : (i.rev : ℕ) = vs.length - 1 - i := by
    rw [Fin.val_rev]
    omega
  simp only [eval_monomial, Fin.revPerm_apply, Fin.rev_rev, hexponent]

theorem batch_eq_eval (c : Felt) {vs : List Felt} (h : vs ≠ []) :
    batch c vs = .ok ((batchPolynomial vs).eval c) := by
  rw [batch_eq_sum c h, eval_batchPolynomial]

theorem batchPolynomial_eq_zero_iff (vs : List Felt) : batchPolynomial vs = 0 ↔ Vanish vs := by
  constructor
  · intro h v hv
    obtain ⟨i, hi, rfl⟩ := List.getElem_of_mem hv
    have hzero : (fun i : Fin vs.length => vs[i.rev]) = 0 :=
      injective_ofFn vs.length (h.trans (map_zero _).symm)
    have happly := congrFun hzero (Fin.rev ⟨i, hi⟩)
    simpa using happly
  · intro h
    have hzero : (fun i : Fin vs.length => vs[i.rev]) = 0 :=
      funext fun i => h _ (List.getElem_mem _)
    rw [batchPolynomial, hzero, map_zero]

theorem natDegree_batchPolynomial {vs : List Felt} (h : vs ≠ []) :
    (batchPolynomial vs).natDegree ≤ vs.length - 1 :=
  Nat.le_sub_one_of_lt (ofFn_natDegree_lt (List.length_pos_iff.mpr h) _)

/-! The challenges. -/

/-- Field elements are the numbers below the prime. -/
def Felt.equivFin : Fin prime ≃ Felt where
  toFun i := ⟨i.val, i.isLt⟩
  invFun x := ⟨x.val, x.val_lt⟩
  left_inv _ := rfl
  right_inv _ := rfl

theorem Felt.card : Nat.card Felt = prime := Nat.card_eq_of_equiv_fin Felt.equivFin.symm

/-- The challenges that batch the values to zero. -/
def missed (vs : List Felt) : Set Felt := {c | batch c vs = .ok 0}

theorem ne_nil_of_not_vanish {vs : List Felt} (h : ¬ Vanish vs) : vs ≠ [] := by
  rintro rfl
  exact h vanish_nil

theorem missed_subset_roots {vs : List Felt} (h : ¬ Vanish vs) :
    missed vs ⊆ ((batchPolynomial vs).roots.toFinset : Set Felt) := by
  intro c hc
  have hne := ne_nil_of_not_vanish h
  have hzero : batchPolynomial vs ≠ 0 := mt (batchPolynomial_eq_zero_iff vs).mp h
  have heval : (batchPolynomial vs).eval c = 0 :=
    Except.ok.inj ((batch_eq_eval c hne).symm.trans hc)
  exact Finset.mem_coe.mpr (Multiset.mem_toFinset.mpr ((mem_roots hzero).mpr heval))

theorem ncard_missed_le {vs : List Felt} (h : ¬ Vanish vs) :
    (missed vs).ncard ≤ vs.length - 1 := by
  have hne := ne_nil_of_not_vanish h
  calc (missed vs).ncard
    _ ≤ ((batchPolynomial vs).roots.toFinset : Set Felt).ncard :=
      Set.ncard_le_ncard (missed_subset_roots h) (Finset.finite_toSet _)
    _ = (batchPolynomial vs).roots.toFinset.card := Set.ncard_coe_finset _
    _ ≤ Multiset.card (batchPolynomial vs).roots := Multiset.toFinset_card_le _
    _ ≤ (batchPolynomial vs).natDegree := card_roots' _
    _ ≤ vs.length - 1 := natDegree_batchPolynomial hne

theorem batch_of_vanish (c : Felt) {vs : List Felt} (hne : vs ≠ []) (h : Vanish vs) :
    batch c vs = .ok 0 := by
  rw [batch_eq_eval c hne, (batchPolynomial_eq_zero_iff vs).mpr h, eval_zero]

/-! The number of values is the same for every window. -/

theorem Selector.length_identities (w : Window) : (identities w).length = 13 := by
  simp [identities, Layout.selectors]

theorem Chain.length_identities (w : Window) : (identities w).length = 12 := by
  simp [identities, links, Link.identities, Layout.operand0, Layout.operand1, Layout.output,
    Layout.carry, Layout.wrapped]

theorem Product.length_identitiesOf (r : Row) (op : WordOp) {left right : Register}
    (hl : left.length = 2) (hr : right.length = 2) :
    (identitiesOf r op left right).length = 2 := by
  have hll := (r.length_limbs left).trans hl
  have hlr := (r.length_limbs right).trans hr
  have hproduct := LimbPoly.length_product (a := r.limbs left) (b := r.limbs right)
    (List.ne_nil_of_length_pos (by omega)) (List.ne_nil_of_length_pos (by omega))
  simp [identitiesOf, hproduct, hll, hlr, Layout.output]

theorem Remainder.length_identities (next : Row) (m r q p : List Felt) :
    (identities next m r q p).length = 4 + p.length + q.length + r.length := by
  simp only [identities, List.length_append, List.length_map, Carry.length_residuals,
    List.length_cons, List.length_nil]
  omega

theorem Division.length_identitiesOf (w : Window) (op : WordOp) {x y z : Register}
    (hx : x.length = 2) (hy : y.length = 2) (hz : z.length = 2) :
    (identitiesOf w op x y z).length = 13 := by
  have hlen := length_polynomial ((w.row.length_limbs x).trans hx)
    ((w.row.length_limbs y).trans hy) (w.row.length_limbs Layout.quotient)
    (w.row.length_limbs Layout.remainder)
  simp only [identitiesOf, List.length_map, List.length_append, Remainder.length_identities, hlen,
    LimbPoly.length_difference, Row.length_limbs, hz]
  rfl

theorem Residue.length_identitiesOf (w : Window) (op : ResidueOp) :
    (identitiesOf w op).length = 15 := by
  have hlen := length_polynomial op (w.row.length_limbs Layout.operand0)
    (w.row.length_limbs Layout.operand1) (w.row.length_limbs Layout.operand2)
    (w.row.length_limbs Layout.output) (w.row.length_limbs Layout.wideQuotient)
  simp only [identitiesOf, List.length_map, Remainder.length_identities, hlen, Row.length_limbs]
  rfl

namespace Family

/-- How many identities a family has. -/
def size : Family → ℕ
  | selectors => 13
  | chain => 12
  | product => 4
  | division => 39
  | residue => 45
  | table => 113

theorem length_identities (f : Family) (w : Window) : (f.identities w).length = f.size := by
  have hproduct : (Product.identities w).length = 4 := by
    rw [Product.identities, List.length_append, Product.length_identitiesOf _ _ rfl rfl,
      Product.length_identitiesOf _ _ rfl rfl]
  have hdivision : (Division.identities w).length = 39 := by
    rw [Division.identities, List.length_append, List.length_append,
      Division.length_identitiesOf _ _ rfl rfl rfl, Division.length_identitiesOf _ _ rfl rfl rfl,
      Division.length_identitiesOf _ _ rfl rfl rfl]
  have hresidue : (Residue.identities w).length = 45 := by
    simp [Residue.identities, ResidueOp.all, Residue.length_identitiesOf]
  cases f
  case selectors => exact Selector.length_identities w
  case chain => exact Chain.length_identities w
  case product => exact hproduct
  case division => exact hdivision
  case residue => exact hresidue
  case table =>
    simp only [identities, Table.identities, List.length_append, Selector.length_identities,
      Chain.length_identities, hproduct, hdivision, hresidue, size]

theorem identities_ne_nil (f : Family) (w : Window) : f.identities w ≠ [] := by
  apply List.ne_nil_of_length_pos
  rw [length_identities]
  cases f <;> decide

end Family

/-- A batch is the sum of its values, each times a power of the challenge. When all identities of a
family vanish on a window every challenge gives zero, and otherwise fewer challenges do than there
are identities, of as many as the prime counts. -/
theorem batch_faithful :
    (∀ (c : Felt) (vs : List Felt), vs ≠ [] →
      batch c vs = .ok (∑ i : Fin vs.length, vs[i] * c ^ (vs.length - 1 - i))) ∧
    Nat.card Felt = prime ∧
    (∀ (f : Family) (w : Window),
      (Vanish (f.identities w) → ∀ c, batch c (f.identities w) = .ok 0) ∧
      (¬ Vanish (f.identities w) →
        (missed (f.identities w)).ncard ≤ (f.identities w).length - 1)) ∧
    ∀ w : Window, Table.accepts w = false → (missed (Table.identities w)).ncard ≤ 112 := by
  refine ⟨fun c vs h => batch_eq_sum c h, Felt.card, ?_, ?_⟩
  · intro f w
    exact ⟨fun h c => batch_of_vanish c (f.identities_ne_nil w) h, ncard_missed_le⟩
  · intro w h
    have hvanish : ¬ Vanish (Table.identities w) := by
      rw [← Table.accepts_iff, h]
      decide
    have hlen : (Table.identities w).length = 113 := Family.table.length_identities w
    have hcard := ncard_missed_le hvanish
    rwa [hlen] at hcard

/-- A wrong output with a modulus of zero, and the honest one. -/
theorem batch_faithful_wrong_output :
    let w : Window := Residue.filled (Operation.start (.residue .mul)) .mul 3 5 0
    let w' : Window := ⟨w.row.set Layout.outputHigh 1, w.next⟩
    batch (Felt.ofNat 2) [1, 2, 3] = .ok (Felt.ofNat 11) ∧
      (∀ c, batch c (Residue.identities w) = .ok 0) ∧
      (missed (Residue.identities w')).ncard ≤ 44 ∧ (missed (Table.identities w')).ncard ≤ 112 := by
  intro w w'
  obtain ⟨hsum, -, hfamilies, htable⟩ := batch_faithful
  have hhonest : Vanish (Residue.identities w) := by decide +kernel
  have hwrong : ¬ Vanish (Residue.identities w') := by decide +kernel
  have hlen : (Residue.identities w').length = 45 := Family.residue.length_identities w'
  have hcard := (hfamilies .residue w').2 hwrong
  refine ⟨(hsum (Felt.ofNat 2) [1, 2, 3] (by decide)).trans (congrArg _ (by decide +kernel)),
    (hfamilies .residue w).1 hhonest, ?_, htable w' (by decide +kernel)⟩
  rwa [Family.identities, hlen] at hcard

end WordTrace

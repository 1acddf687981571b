import Mathlib.Data.List.GetD
import WordTrace.Proofs.LimbPoly

/-! # Carries settle exactly the divisible values

Settling limb by limb succeeds if and only if the value of all limbs together is divisible, and the
last carry is the quotient. Over the field the carries of a polynomial always exist, are unique, and
tell its value.
-/

namespace WordTrace

/-- All values are zero. -/
def Vanish (xs : List Felt) : Prop := ∀ x ∈ xs, x = 0

instance (xs : List Felt) : Decidable (Vanish xs) := inferInstanceAs (Decidable (∀ x ∈ xs, x = 0))

@[simp] theorem vanish_nil : Vanish [] := fun _ h => absurd h List.not_mem_nil

@[simp] theorem vanish_cons {x : Felt} {xs : List Felt} :
    Vanish (x :: xs) ↔ x = 0 ∧ Vanish xs := List.forall_mem_cons

@[simp] theorem vanish_append {xs ys : List Felt} :
    Vanish (xs ++ ys) ↔ Vanish xs ∧ Vanish ys := List.forall_mem_append

theorem Vanish.eq {xs ys : List Felt} (hx : Vanish xs) (hlen : xs.length = ys.length)
    (hy : Vanish ys) : xs = ys := by
  rw [List.eq_replicate_of_mem hx, List.eq_replicate_of_mem hy, hlen]

/-- A factor common to all values is zero or can be left out. -/
@[simp] theorem vanish_map_mul {c : Felt} {xs : List Felt} :
    Vanish (xs.map (c * ·)) ↔ c = 0 ∨ Vanish xs := by
  by_cases hc : c = 0
  · simp [Vanish, hc]
  · simp [Vanish, hc, mul_eq_zero]

theorem vanish_map_mul_comp {α : Type} {c : Felt} {f : α → Felt} {xs : List α} :
    Vanish (xs.map fun x => c * f x) ↔ c = 0 ∨ ∀ x ∈ xs, f x = 0 := by
  have h := @vanish_map_mul c (xs.map f)
  rw [List.map_map] at h
  exact h.trans (by rw [Vanish, List.forall_mem_map])

namespace Carry
open Limb (base baseFelt)

/-! Carries over the integers. -/

/-- The carries of a settlement, rounded down where a limb does not settle. -/
def quotients (carry : ℤ) : List ℤ → List ℤ
  | [] => []
  | x :: xs => (carry + x) / base :: quotients ((carry + x) / base) xs

@[simp] theorem length_quotients (carry : ℤ) (p : List ℤ) :
    (quotients carry p).length = p.length := by
  induction p generalizing carry with
  | nil => rfl
  | cons x p ih => simp [quotients, ih]

/-- One limb settles and leaves the rest divisible, or nothing does. -/
theorem dvd_value_cons_iff (carry x : ℤ) (p : List ℤ) :
    base ^ (p.length + 1) ∣ carry + Limb.value (x :: p) ↔
      (carry + x) % base = 0 ∧ base ^ p.length ∣ (carry + x) / base + Limb.value p := by
  have hshift (h : (carry + x) % base = 0) : carry + Limb.value (x :: p) =
      base * ((carry + x) / base + Limb.value p) := by
    have hq := Int.mul_ediv_cancel' (Int.dvd_of_emod_eq_zero h)
    rw [Limb.value_cons, mul_add, hq, add_assoc]
  constructor
  · intro h
    have hx : base ∣ carry + x := by
      have hbase := (dvd_pow_self base (Nat.succ_ne_zero p.length)).trans h
      rw [Limb.value_cons, ← add_assoc] at hbase
      exact (Int.dvd_add_left (dvd_mul_right base _)).mp hbase
    have hmod := Int.emod_eq_zero_of_dvd hx
    rw [hshift hmod, pow_succ'] at h
    exact ⟨hmod, Int.dvd_of_mul_dvd_mul_left (by decide) h⟩
  · rintro ⟨hmod, h⟩
    rw [hshift hmod, pow_succ']
    exact mul_dvd_mul_left base h

theorem settle_eq (carry : ℤ) (p : List ℤ) :
    settle carry p =
      if base ^ p.length ∣ carry + Limb.value p then some (quotients carry p) else none := by
  induction p generalizing carry with
  | nil => simp [quotients]
  | cons x p ih =>
    rw [settle, ih, List.length_cons, quotients]
    by_cases hmod : (carry + x) % base = 0
    · by_cases hrest : base ^ p.length ∣ (carry + x) / base + Limb.value p
      · rw [if_pos hmod, if_pos hrest, if_pos ((dvd_value_cons_iff carry x p).mpr ⟨hmod, hrest⟩)]
        rfl
      · rw [if_pos hmod, if_neg hrest,
          if_neg (fun h => hrest ((dvd_value_cons_iff carry x p).mp h).2)]
        rfl
    · rw [if_neg hmod, if_neg (fun h => hmod ((dvd_value_cons_iff carry x p).mp h).1)]

theorem settle_of_dvd {carry : ℤ} {p : List ℤ} (h : base ^ p.length ∣ carry + Limb.value p) :
    settle carry p = some (quotients carry p) := by
  rw [settle_eq, if_pos h]

/-- The last carry is the quotient of the whole. -/
theorem add_value_eq_mul_last {carry : ℤ} {p : List ℤ}
    (h : base ^ p.length ∣ carry + Limb.value p) :
    carry + Limb.value p = base ^ p.length * (quotients carry p).getLastD carry := by
  induction p generalizing carry with
  | nil => simp [quotients]
  | cons x p ih =>
    obtain ⟨hmod, hrest⟩ := (dvd_value_cons_iff carry x p).mp h
    have hq := Int.mul_ediv_cancel' (Int.dvd_of_emod_eq_zero hmod)
    have hlast : (quotients carry (x :: p)).getLastD carry =
        (quotients ((carry + x) / base) p).getLastD ((carry + x) / base) := by
      rw [quotients, List.getLastD_cons]
    rw [hlast, List.length_cons, pow_succ', mul_assoc, ← ih hrest, mul_add, hq, Limb.value_cons,
      add_assoc]

/-- Limbs of two summands less those of a sum never carry more than one. -/
theorem quotients_binary {carry : ℤ} {p : List ℤ} (hc : carry = 0 ∨ carry = 1)
    (hp : ∀ x ∈ p, -base < x ∧ x < 2 * base - 1) (h : base ^ p.length ∣ carry + Limb.value p) :
    ∀ q ∈ quotients carry p, q = 0 ∨ q = 1 := by
  induction p generalizing carry with
  | nil => simp [quotients]
  | cons x p ih =>
    obtain ⟨hmod, hrest⟩ := (dvd_value_cons_iff carry x p).mp h
    obtain ⟨hx, hx'⟩ := hp x (List.mem_cons_self ..)
    have hq : (carry + x) / base = 0 ∨ (carry + x) / base = 1 := by
      simp only [base] at *
      omega
    have hq' := ih hq (fun y hy => hp y (List.mem_cons_of_mem x hy)) hrest
    intro q hmem
    rcases List.mem_cons.mp hmem with rfl | hmem
    · exact hq
    · exact hq' q hmem

/-- Limbs of two summands less those of a sum, each in range. -/
theorem excess_bounds {x y z : List ℤ} (hx : ∀ v ∈ x, 0 ≤ v ∧ v < base)
    (hy : ∀ v ∈ y, 0 ≤ v ∧ v < base) (hz : ∀ v ∈ z, 0 ≤ v ∧ v < base) :
    ∀ v ∈ List.zipWith (· - ·) (List.zipWith (· + ·) x y) z, -base < v ∧ v < 2 * base - 1 := by
  induction x generalizing y z with
  | nil => simp
  | cons a x ih =>
    cases y with
    | nil => simp
    | cons b y =>
      cases z with
      | nil => simp
      | cons c z =>
        simp only [List.zipWith_cons_cons, List.forall_mem_cons] at hx hy hz ⊢
        exact ⟨by omega, ih hx.2 hy.2 hz.2⟩

theorem ofSum_of_dvd {x y z : List ℤ} (hxy : x.length = y.length) (hyz : y.length = z.length)
    (h : base ^ z.length ∣ Limb.value x + Limb.value y - Limb.value z) :
    ofSum x y z = .ok (quotients 0 (LimbPoly.difference (LimbPoly.sum x y) z)) := by
  have hsum := LimbPoly.sum_eq_zipWith hxy
  have hdiff := LimbPoly.difference_eq_zipWith (a := LimbPoly.sum x y) (b := z) (by simp; omega)
  have hlen : (LimbPoly.difference (LimbPoly.sum x y) z).length = z.length := by simp; omega
  have hsettle := @settle_of_dvd 0 (LimbPoly.difference (LimbPoly.sum x y) z)
    (by simpa [hlen] using h)
  rw [ofSum, ← hsum, ← hdiff, hsettle]

/-- No coefficient of a product of nonempty factors is unset. -/
theorem ofProduct_of_ne_nil {left right : List ℤ} (hl : left ≠ []) (hr : right ≠ [])
    (output : List ℤ) : ofProduct left right output =
      match settle 0 (List.zipWith (· - ·) ((LimbPoly.product left right).take 2) output) with
      | some carries => .ok carries
      | none => .error (.brokenProduct left right output) := by
  unfold ofProduct
  rw [LimbPoly.Partial.product_of_ne_nil hl hr]
  cases LimbPoly.product left right <;> cases output <;> rfl

theorem ofProduct_of_dvd {left right output : List ℤ} (hl : left ≠ []) (hr : right ≠ [])
    (hlen : ((LimbPoly.product left right).take 2).length = output.length)
    (h : base ^ output.length ∣
      Limb.value ((LimbPoly.product left right).take 2) - Limb.value output) :
    ofProduct left right output = .ok (quotients 0
      (LimbPoly.difference ((LimbPoly.product left right).take 2) output)) := by
  have hdiff := LimbPoly.difference_eq_zipWith hlen
  have hsettle := @settle_of_dvd 0
    (LimbPoly.difference ((LimbPoly.product left right).take 2) output) (by simpa [hlen] using h)
  rw [ofProduct_of_ne_nil hl hr, ← hdiff, hsettle]

/-- When the value is zero the coefficients below the leading one settle, and their last carry is
the leading coefficient. -/
theorem root_last {init : List ℤ} {leading : ℤ} (h : Limb.value (init ++ [leading]) = 0) :
    base ^ (init.map (- ·)).length ∣ 0 + Limb.value (init.map (- ·)) ∧
      (quotients 0 (init.map (- ·))).getLastD 0 = leading := by
  have hneg : 0 + Limb.value (init.map (- ·)) = base ^ (init.map (- ·)).length * leading := by
    rw [Limb.value_append, Limb.value_cons, Limb.value_nil, mul_zero, add_zero] at h
    rw [Limb.value_map_neg, List.length_map, zero_add]
    linarith
  have hdvd := Dvd.intro _ hneg.symm
  have hlast := add_value_eq_mul_last hdvd
  rw [hneg] at hlast
  exact ⟨hdvd, (mul_left_cancel₀ (pow_ne_zero _ (by decide)) hlast).symm⟩

/-- The carries of a polynomial with the root `2^16`, one for each coefficient but the leading. -/
def root (p : List ℤ) : List ℤ := quotients 0 (p.dropLast.map (- ·))

@[simp] theorem length_root (p : List ℤ) : (root p).length = p.length - 1 := by simp [root]

theorem ofRoot_of_value_eq_zero {p : List ℤ} (hp : p ≠ []) (h : Limb.value p = 0) :
    ofRoot p = .ok (root p) := by
  obtain ⟨init, leading, rfl⟩ := List.eq_nil_or_concat' p |>.resolve_left hp
  obtain ⟨hdvd, hlast⟩ := root_last h
  simp only [ofRoot, root, List.getLast?_concat, List.dropLast_concat, settle_of_dvd hdvd, hlast,
    if_true]

/-- Exact division by the base makes up for coefficients that are nearly the base times as great as
the carries. -/
theorem bounded_quotients {l : ℕ} {carry : ℤ} {p : List ℤ} (hc : carry.natAbs ≤ l)
    (hp : LimbPoly.Bounded (65535 * (l + 1)) p) (h : base ^ p.length ∣ carry + Limb.value p) :
    LimbPoly.Bounded l (quotients carry p) := by
  induction p generalizing carry with
  | nil => simp [quotients, LimbPoly.Bounded]
  | cons x p ih =>
    obtain ⟨hx, hp⟩ := LimbPoly.bounded_cons.mp hp
    obtain ⟨hmod, hrest⟩ := (dvd_value_cons_iff carry x p).mp h
    have hq : ((carry + x) / base).natAbs ≤ l := by
      simp only [base] at *
      omega
    exact LimbPoly.bounded_cons.mpr ⟨hq, ih hq hp hrest⟩

theorem bounded_root {l : ℕ} {p : List ℤ} (hp : p ≠ []) (h : Limb.value p = 0)
    (hbound : LimbPoly.Bounded (65535 * (l + 1)) p) : LimbPoly.Bounded l (root p) := by
  obtain ⟨init, leading, rfl⟩ := List.eq_nil_or_concat' p |>.resolve_left hp
  have hinit : LimbPoly.Bounded (65535 * (l + 1)) init :=
    fun x hx => hbound x (List.mem_append_left _ hx)
  rw [root, List.dropLast_concat]
  exact bounded_quotients (Nat.zero_le l) hinit.neg (root_last h).1

/-! Carries over the field. -/

theorem vanish_residualsFrom_cons {below x c : Felt} {p cs : List Felt} :
    Vanish (residualsFrom below (x :: p) (c :: cs)) ↔
      x - below + baseFelt * c = 0 ∧ Vanish (residualsFrom c p cs) := vanish_cons

/-- Settled limbs leave nothing in the field, and hand the last carry on to what follows them. -/
theorem vanish_residualsFrom_append (carry : ℤ) {p : List ℤ} (rest : List ℤ)
    (h : base ^ p.length ∣ carry + Limb.value p) :
    Vanish (residualsFrom (Felt.ofInt carry) ((p.map (- ·) ++ rest).map Felt.ofInt)
        ((quotients carry p).map Felt.ofInt)) ↔
      Vanish (residualsFrom (Felt.ofInt ((quotients carry p).getLastD carry))
        (rest.map Felt.ofInt) []) := by
  induction p generalizing carry with
  | nil => simp [quotients]
  | cons x p ih =>
    obtain ⟨hmod, hrest⟩ := (dvd_value_cons_iff carry x p).mp h
    have hq := Int.mul_ediv_cancel' (Int.dvd_of_emod_eq_zero hmod)
    have hlimb : Felt.ofInt (-x) - Felt.ofInt carry +
        baseFelt * Felt.ofInt ((carry + x) / base) = 0 := by
      rw [← Felt.ofInt_base, ← Felt.ofInt_mul, hq, ← Felt.ofInt_sub, ← Felt.ofInt_add]
      convert Felt.ofInt_zero using 2
      ring
    simp only [quotients, List.map_cons, List.cons_append, vanish_residualsFrom_cons, hlimb,
      List.getLastD_cons, ih _ hrest, true_and]

theorem vanish_residuals_of_dvd {p : List ℤ} (h : base ^ p.length ∣ Limb.value p) :
    Vanish (residuals ((p.map (- ·)).map Felt.ofInt) ((quotients 0 p).map Felt.ofInt)) := by
  have happend := vanish_residualsFrom_append 0 [] (by simpa using h)
  rw [List.append_nil] at happend
  exact happend.mpr vanish_nil

theorem vanish_residuals_root {p : List ℤ} (hp : p ≠ []) (h : Limb.value p = 0) :
    Vanish (residuals (p.map Felt.ofInt) ((root p).map Felt.ofInt)) := by
  obtain ⟨init, leading, rfl⟩ := List.eq_nil_or_concat' p |>.resolve_left hp
  rw [root, List.dropLast_concat]
  obtain ⟨hdvd, hlast⟩ := root_last h
  have happend := vanish_residualsFrom_append 0 [leading] hdvd
  rw [List.map_map, show ((- ·) ∘ (- ·) : ℤ → ℤ) = id from funext neg_neg, List.map_id] at happend
  apply happend.mpr
  rw [hlast]
  simp [residualsFrom]

/-- Vanishing residuals tell the value up to the carry out of the leading limb. -/
theorem valueFelt_of_vanish {below : Felt} {p cs : List Felt} (hp : p ≠ [])
    (h : Vanish (residualsFrom below p cs)) :
    Limb.valueFelt p = below - baseFelt ^ p.length * cs.getD (p.length - 1) 0 := by
  induction p generalizing below cs with
  | nil => exact absurd rfl hp
  | cons x p ih =>
    cases cs with
    | nil =>
      obtain ⟨hx, hrest⟩ := vanish_cons.mp h
      cases p with
      | nil => simpa [sub_eq_zero] using hx
      | cons y p =>
        have hv := ih (List.cons_ne_nil y p) hrest
        rw [Limb.valueFelt_cons, hv, sub_eq_zero.mp hx]
        simp
    | cons c cs =>
      obtain ⟨hx, hrest⟩ := vanish_cons.mp h
      cases p with
      | nil =>
        simp only [Limb.valueFelt_cons, Limb.valueFelt_nil, List.length_singleton, pow_one,
          Nat.sub_self, List.getD_cons_zero]
        linear_combination hx
      | cons y p =>
        have hv := ih (List.cons_ne_nil y p) hrest
        rw [Limb.valueFelt_cons, hv]
        simp only [List.length_cons, Nat.add_sub_cancel, List.getD_cons_succ, pow_succ]
        linear_combination hx

theorem valueFelt_eq_of_vanish {below : Felt} {p cs : List Felt} (hlen : cs.length < p.length)
    (h : Vanish (residualsFrom below p cs)) : Limb.valueFelt p = below := by
  have hp : p ≠ [] := List.ne_nil_of_length_pos (by omega)
  rw [valueFelt_of_vanish hp h, List.getD_eq_default _ _ (by omega), mul_zero, sub_zero]

theorem residualsFrom_cons (below x : Felt) (p cs : List Felt) :
    residualsFrom below (x :: p) cs =
      (x - below + baseFelt * cs.headD 0) :: residualsFrom (cs.headD 0) p cs.tail := by
  cases cs with
  | nil => simp [residualsFrom]
  | cons c cs => rfl

/-- There is no choice of coefficients, once the carries are given. -/
theorem polynomial_eq_of_vanish {below : Felt} {p q cs : List Felt} (hlen : p.length = q.length)
    (hp : Vanish (residualsFrom below p cs)) (hq : Vanish (residualsFrom below q cs)) : p = q := by
  induction p generalizing below q cs with
  | nil => exact (List.eq_nil_of_length_eq_zero hlen.symm).symm
  | cons x p ih =>
    obtain ⟨y, q, rfl⟩ := List.exists_cons_of_length_eq_add_one hlen.symm
    rw [residualsFrom_cons, vanish_cons] at hp hq
    have hxy : x = y := by linear_combination hp.1 - hq.1
    rw [hxy, ih (by simpa using hlen) hp.2 hq.2]

/-- There is no choice of carries, since the base is invertible. -/
theorem eq_of_vanish {below : Felt} {p cs ds : List Felt} (hlen : cs.length = ds.length)
    (hle : cs.length ≤ p.length) (hc : Vanish (residualsFrom below p cs))
    (hd : Vanish (residualsFrom below p ds)) : cs = ds := by
  induction p generalizing below cs ds with
  | nil =>
    rw [List.eq_nil_of_length_eq_zero (Nat.le_zero.mp hle),
      List.eq_nil_of_length_eq_zero (hlen.symm.trans (Nat.le_zero.mp hle))]
  | cons x p ih =>
    cases cs with
    | nil => exact (List.eq_nil_of_length_eq_zero hlen.symm).symm
    | cons c cs =>
      obtain ⟨d, ds, rfl⟩ := List.exists_cons_of_length_eq_add_one hlen.symm
      obtain ⟨hx, hcs⟩ := vanish_cons.mp hc
      obtain ⟨hx', hds⟩ := vanish_cons.mp hd
      have hcd : c = d := mul_left_cancel₀ Felt.baseFelt_ne_zero (by linear_combination hx - hx')
      subst hcd
      rw [ih (by simpa using hlen) (by simpa using hle) hcs hds]

/-- The carries that make every residual vanish, one for each coefficient. -/
def solve (below : Felt) : List Felt → List Felt
  | [] => []
  | x :: p => (below - x) * baseFelt⁻¹ :: solve ((below - x) * baseFelt⁻¹) p

@[simp] theorem length_solve (below : Felt) (p : List Felt) :
    (solve below p).length = p.length := by
  induction p generalizing below with
  | nil => rfl
  | cons x p ih => simp [solve, ih]

theorem vanish_residualsFrom_solve (below : Felt) (p : List Felt) :
    Vanish (residualsFrom below p (solve below p)) := by
  induction p generalizing below with
  | nil => exact vanish_nil
  | cons x p ih =>
    rw [solve, vanish_residualsFrom_cons]
    refine ⟨?_, ih _⟩
    rw [mul_comm, mul_assoc, inv_mul_cancel₀ Felt.baseFelt_ne_zero]
    ring

/-- As many carries as coefficients leave no choice, and never fail to exist. -/
theorem vanish_iff_eq_solve {below : Felt} {p cs : List Felt} (hlen : cs.length = p.length) :
    Vanish (residualsFrom below p cs) ↔ cs = solve below p := by
  have hsolve := vanish_residualsFrom_solve below p
  constructor
  · intro h
    exact eq_of_vanish (hlen.trans (length_solve below p).symm) hlen.le h hsolve
  · rintro rfl
    exact hsolve

/-- A last carry of zero is as good as none. -/
theorem residualsFrom_append_zero (below : Felt) (p cs : List Felt) :
    residualsFrom below p (cs ++ [0]) = residualsFrom below p cs := by
  induction cs generalizing below p with
  | nil => cases p <;> simp [residualsFrom]
  | cons c cs ih => cases p <;> simp [residualsFrom, ih]

/-- A polynomial of value zero has carries without one out of the leading limb. -/
theorem exists_vanish {p : List Felt} (hp : p ≠ []) (h : Limb.valueFelt p = 0) :
    ∃ cs : List Felt, cs.length = p.length - 1 ∧ Vanish (residuals p cs) := by
  have hsolve := vanish_residualsFrom_solve 0 p
  obtain ⟨init, last, heq⟩ : ∃ init last, solve 0 p = init ++ [last] := by
    refine (List.eq_nil_or_concat' (solve 0 p)).resolve_left fun hnil => hp ?_
    exact List.eq_nil_of_length_eq_zero (by rw [← length_solve 0 p, hnil, List.length_nil])
  have hlen : init.length = p.length - 1 := by
    have hs := length_solve 0 p
    rw [heq, List.length_append, List.length_singleton] at hs
    omega
  have hlast : last = 0 := by
    have hv := valueFelt_of_vanish hp hsolve
    rw [h, heq, ← hlen, List.getD_append_right _ _ _ _ le_rfl, Nat.sub_self,
      List.getD_cons_zero, zero_sub, zero_eq_neg] at hv
    exact (mul_eq_zero.mp hv).resolve_left (pow_ne_zero _ Felt.baseFelt_ne_zero)
  refine ⟨init, hlen, ?_⟩
  rw [heq, hlast, residualsFrom_append_zero] at hsolve
  exact hsolve

/-- The magnitude that range checks grant to a carry. -/
def bound : ℕ := 4294967296

/-- One small coefficient and two small carries cannot wrap around the prime. -/
theorem limb_eq_of_bounded {k l : ℕ} (hkl : k + l + 65536 * l < prime) {below x c : ℤ}
    (hx : x.natAbs ≤ k) (hb : below.natAbs ≤ l) (hc : c.natAbs ≤ l)
    (h : Felt.ofInt x - Felt.ofInt below + baseFelt * Felt.ofInt c = 0) :
    x - below + base * c = 0 := by
  apply Felt.eq_zero_of_ofInt
  · simpa using h
  · rw [abs_lt]
    simp only [base]
    omega

/-- Residuals of small coefficients with small carries that vanish in the field give the value of
the integers. -/
theorem value_eq_of_bounded {k l : ℕ} (hkl : k + l + 65536 * l < prime) {below : ℤ} {p cs : List ℤ}
    (hlen : cs.length + 1 = p.length) (hp : LimbPoly.Bounded k p) (hcs : LimbPoly.Bounded l cs)
    (hb : below.natAbs ≤ l)
    (h : Vanish (residualsFrom (Felt.ofInt below) (p.map Felt.ofInt) (cs.map Felt.ofInt))) :
    Limb.value p = below := by
  induction p generalizing below cs with
  | nil => simp at hlen
  | cons x p ih =>
    obtain ⟨hx, hp⟩ := LimbPoly.bounded_cons.mp hp
    cases cs with
    | nil =>
      obtain rfl : p = [] := List.eq_nil_of_length_eq_zero (by simpa using hlen.symm)
      have hzero : Felt.ofInt x - Felt.ofInt below + baseFelt * Felt.ofInt 0 = 0 := by
        simpa [residualsFrom] using h
      have hnone : (0 : ℤ).natAbs ≤ l := Nat.zero_le l
      have heq := limb_eq_of_bounded hkl hx hb hnone hzero
      rw [Limb.value_cons, Limb.value_nil]
      linarith
    | cons c cs =>
      obtain ⟨hc, hcs⟩ := LimbPoly.bounded_cons.mp hcs
      obtain ⟨hlimb, hrest⟩ := vanish_cons.mp h
      have heq := limb_eq_of_bounded hkl hx hb hc hlimb
      rw [Limb.value_cons, ih (by simpa using hlen) hp hcs hc hrest]
      exact sub_eq_zero.mp ((by ring : x + base * c - below = x - below + base * c).trans heq)

/-- With a carry for every coefficient small carries are those of the integers, and settle them. -/
theorem eq_quotients_of_bounded {k l : ℕ} (hkl : k + l + 65536 * l < prime) {below : ℤ}
    {p cs : List ℤ} (hlen : cs.length = p.length) (hp : LimbPoly.Bounded k p)
    (hcs : LimbPoly.Bounded l cs) (hb : below.natAbs ≤ l)
    (h : Vanish (residualsFrom (Felt.ofInt below) ((p.map (- ·)).map Felt.ofInt)
      (cs.map Felt.ofInt))) :
    base ^ p.length ∣ below + Limb.value p ∧ cs = quotients below p := by
  induction p generalizing below cs with
  | nil => simp [List.eq_nil_of_length_eq_zero hlen, quotients]
  | cons x p ih =>
    obtain ⟨hx, hp⟩ := LimbPoly.bounded_cons.mp hp
    obtain ⟨c, cs, rfl⟩ := List.exists_cons_of_length_eq_add_one hlen
    obtain ⟨hc, hcs⟩ := LimbPoly.bounded_cons.mp hcs
    obtain ⟨hlimb, hrest⟩ := vanish_cons.mp h
    have heq := limb_eq_of_bounded hkl ((Int.natAbs_neg x).le.trans hx) hb hc hlimb
    have hcarry : below + x = base * c := by linarith
    have hquotient : (below + x) / base = c := by
      rw [hcarry]
      exact Int.mul_ediv_cancel_left c (by decide)
    obtain ⟨hdvd, hcs⟩ := ih (by simpa using hlen) hp hcs hc hrest
    constructor
    · rw [List.length_cons, dvd_value_cons_iff, hquotient]
      exact ⟨Int.emod_eq_zero_of_dvd ⟨c, hcarry⟩, hdvd⟩
    · rw [quotients, hquotient, ← hcs]

end Carry
end WordTrace

import WordTrace.Proofs.Carry

/-! # Dividing by the root

The carries of a polynomial are its quotient by `X - 2^16`. Over the integers the quotient is found
if and only if there is no remainder, and it is the only one. Over the field one carry for each
coefficient settles any polynomial, and one carry fewer settles those of value zero.
-/

namespace WordTrace.Carry
open Limb (base baseFelt)

/-! Over the integers. -/

/-- The coefficients of `(X - 2^16) * c`, one more than `c` has, are those of `p`. -/
structure IsQuotient (p c : List ℤ) : Prop where
  length_eq : c.length + 1 = p.length
  coefficient : ∀ k < p.length, p.getD k 0 = (0 :: c).getD k 0 - base * c.getD k 0

theorem IsQuotient.ne_nil {p c : List ℤ} (h : IsQuotient p c) : p ≠ [] :=
  List.ne_nil_of_length_eq_add_one h.length_eq.symm

/-- The first limb settles with the carry whose multiple of the base it is. -/
theorem settle_cons_eq_some_iff {carry x d : ℤ} {p c : List ℤ} :
    settle carry (x :: p) = some (d :: c) ↔ carry + x = base * d ∧ settle d p = some c := by
  constructor
  · intro h
    rw [settle] at h
    split_ifs at h with hmod
    obtain ⟨rest, hrest, heq⟩ := Option.map_eq_some_iff.mp h
    obtain ⟨hd, rfl⟩ := List.cons.inj heq
    rw [← hd]
    exact ⟨(Int.mul_ediv_cancel' (Int.dvd_of_emod_eq_zero hmod)).symm, hrest⟩
  · rintro ⟨hlimb, hrest⟩
    have hquotient : (carry + x) / base = d := by
      rw [hlimb]
      exact Int.mul_ediv_cancel_left d (by decide)
    rw [settle, if_pos (Int.emod_eq_zero_of_dvd ⟨d, hlimb⟩), hquotient, hrest, Option.map_some]

/-- The carries of a settlement are the solution of its equations, limb by limb. -/
theorem settle_eq_some_iff {carry : ℤ} {p c : List ℤ} :
    settle carry p = some c ↔ c.length = p.length ∧
      ∀ k < p.length, (carry :: c).getD k 0 + p.getD k 0 = base * c.getD k 0 := by
  induction p generalizing carry c with
  | nil => simp [List.length_eq_zero_iff, eq_comm]
  | cons x p ih =>
    cases c with
    | nil => simp [settle]
    | cons d c =>
      rw [settle_cons_eq_some_iff, ih, List.length_cons, List.length_cons, Nat.succ_inj,
        Nat.forall_lt_succ_left]
      simp only [List.getD_cons_zero, List.getD_cons_succ]
      exact and_left_comm

theorem getD_length_eq_getLastD (x : ℤ) (c : List ℤ) :
    (x :: c).getD c.length 0 = c.getLastD x := by
  induction c generalizing x with
  | nil => rfl
  | cons d c ih => rw [List.length_cons, List.getD_cons_succ, ih, List.getLastD_cons]

/-- Missing coefficients count as zero, also after a map that keeps zero. -/
theorem getD_map_of_zero {f : ℤ → ℤ} (hf : f 0 = 0) (c : List ℤ) (k : ℕ) :
    (c.map f).getD k 0 = f (c.getD k 0) := by
  rw [← List.getD_map c 0 f, hf]

/-- A quotient settles all coefficients but the leading one, and hands that one on. -/
theorem isQuotient_concat_iff {init c : List ℤ} {leading : ℤ} :
    IsQuotient (init ++ [leading]) c ↔
      settle 0 (init.map (- ·)) = some c ∧ c.getLastD 0 = leading := by
  have hbelow (k : ℕ) (hk : k < init.length) :
      (init ++ [leading]).getD k 0 = (0 :: c).getD k 0 - base * c.getD k 0 ↔
        (0 :: c).getD k 0 + (init.map (- ·)).getD k 0 = base * c.getD k 0 := by
    rw [List.getD_append _ _ _ _ hk, getD_map_of_zero neg_zero]
    constructor <;> intro h <;> linarith
  -- no carry is left at the leading coefficient, so it is the one from below
  have htop (hlen : c.length = init.length) :
      (init ++ [leading]).getD init.length 0 =
        (0 :: c).getD init.length 0 - base * c.getD init.length 0 ↔ c.getLastD 0 = leading := by
    rw [List.getD_append_right _ _ _ _ le_rfl, Nat.sub_self, List.getD_cons_zero, ← hlen,
      getD_length_eq_getLastD, List.getD_eq_default _ _ le_rfl, mul_zero, sub_zero, eq_comm]
  rw [settle_eq_some_iff, List.length_map]
  constructor
  · rintro ⟨hlength, hcoefficient⟩
    rw [List.length_append, List.length_singleton] at hlength hcoefficient
    obtain ⟨hall, hlast⟩ := Nat.forall_lt_succ_right.mp hcoefficient
    have hlen := Nat.succ_inj.mp hlength
    exact ⟨⟨hlen, fun k hk => (hbelow k hk).mp (hall k hk)⟩, (htop hlen).mp hlast⟩
  · rintro ⟨⟨hlen, hall⟩, hlast⟩
    constructor
    · rw [List.length_append, List.length_singleton, hlen]
    · rw [List.length_append, List.length_singleton, Nat.forall_lt_succ_right]
      exact ⟨fun k hk => (hbelow k hk).mpr (hall k hk), (htop hlen).mpr hlast⟩

/-- The root is removed by the carries below the leading coefficient, when the last of them is that
coefficient. -/
theorem ofRoot_concat_eq_ok_iff {init c : List ℤ} {leading : ℤ} :
    ofRoot (init ++ [leading]) = .ok c ↔
      settle 0 (init.map (- ·)) = some c ∧ c.getLastD 0 = leading := by
  simp only [ofRoot, List.getLast?_concat, List.dropLast_concat]
  cases settle 0 (init.map (- ·)) with
  | none => simp
  | some carries =>
    simp only [Option.some.injEq]
    constructor
    · intro h
      split_ifs at h with hlast
      obtain rfl := Except.ok.inj h
      exact ⟨rfl, hlast⟩
    · rintro ⟨rfl, hlast⟩
      rw [if_pos hlast]

theorem ofRoot_eq_ok_iff {p c : List ℤ} (hp : p ≠ []) : ofRoot p = .ok c ↔ IsQuotient p c := by
  obtain ⟨init, leading, rfl⟩ := List.eq_nil_or_concat' p |>.resolve_left hp
  rw [ofRoot_concat_eq_ok_iff, isQuotient_concat_iff]

theorem ofRoot_eq_ok_or_error {p : List ℤ} (hp : p ≠ []) :
    (∃ c, ofRoot p = .ok c) ∨ ofRoot p = .error (.notRoot p) := by
  obtain ⟨init, leading, rfl⟩ := List.eq_nil_or_concat' p |>.resolve_left hp
  simp only [ofRoot, List.getLast?_concat, List.dropLast_concat]
  cases settle 0 (init.map (- ·)) with
  | none => exact .inr rfl
  | some carries =>
    by_cases hlast : carries.getLastD 0 = leading
    · exact .inl ⟨carries, if_pos hlast⟩
    · exact .inr (if_neg hlast)

theorem IsQuotient.value_eq_zero {p c : List ℤ} (h : IsQuotient p c) : Limb.value p = 0 := by
  obtain ⟨init, leading, rfl⟩ := List.eq_nil_or_concat' p |>.resolve_left h.ne_nil
  obtain ⟨hsettle, hlast⟩ := isQuotient_concat_iff.mp h
  rw [settle_eq] at hsettle
  split_ifs at hsettle with hdvd
  have hvalue := add_value_eq_mul_last hdvd
  rw [Option.some.inj hsettle, hlast, Limb.value_map_neg, List.length_map] at hvalue
  rw [Limb.value_append, Limb.value_cons, Limb.value_nil]
  linarith

theorem IsQuotient.unique {p c d : List ℤ} (hc : IsQuotient p c) (hd : IsQuotient p d) : c = d := by
  have hok := ((ofRoot_eq_ok_iff hc.ne_nil).mpr hc).symm.trans ((ofRoot_eq_ok_iff hd.ne_nil).mpr hd)
  exact Except.ok.inj hok

theorem exists_ofRoot_iff {p : List ℤ} (hp : p ≠ []) :
    (∃ c, ofRoot p = .ok c) ↔ Limb.value p = 0 := by
  constructor
  · rintro ⟨c, hc⟩
    exact ((ofRoot_eq_ok_iff hp).mp hc).value_eq_zero
  · intro h
    exact ⟨root p, ofRoot_of_value_eq_zero hp h⟩

theorem IsQuotient.vanish_residuals {p c : List ℤ} (h : IsQuotient p c) :
    Vanish (residuals (p.map Felt.ofInt) (c.map Felt.ofInt)) := by
  have hok := ofRoot_of_value_eq_zero h.ne_nil h.value_eq_zero
  rw [h.unique ((ofRoot_eq_ok_iff h.ne_nil).mp hok)]
  exact vanish_residuals_root h.ne_nil h.value_eq_zero

/-- Whatever is multiplied by `X - 2^16` is found again. -/
theorem isQuotient_product {c : List ℤ} (hc : c ≠ []) :
    IsQuotient (LimbPoly.product [-base, 1] c) c := by
  rw [LimbPoly.product_binomial hc]
  constructor
  · simp
  · intro k _
    rw [LimbPoly.getD_sum, getD_map_of_zero (mul_zero (-base))]
    ring

/-- For every polynomial with a coefficient the root is removed if and only if the value is zero,
by the only quotient there is, which leaves nothing in the field either. -/
theorem root_division_exact :
    (∀ p : List ℤ, p ≠ [] →
      ((∃ c, ofRoot p = .ok c) ↔ Limb.value p = 0) ∧
      (∀ c, ofRoot p = .ok c → IsQuotient p c ∧ (∀ d, IsQuotient p d → d = c) ∧
        Vanish (residuals (p.map Felt.ofInt) (c.map Felt.ofInt))) ∧
      (Limb.value p ≠ 0 → ofRoot p = .error (.notRoot p))) ∧
    ∀ c : List ℤ, c ≠ [] →
      ∃ p, LimbPoly.Partial.product [-base, 1] c = p.map some ∧ ofRoot p = .ok c := by
  constructor
  · intro p hp
    refine ⟨exists_ofRoot_iff hp, fun c hc => ?_, fun hvalue => ?_⟩
    · have hquotient := (ofRoot_eq_ok_iff hp).mp hc
      exact ⟨hquotient, fun d hd => hd.unique hquotient, hquotient.vanish_residuals⟩
    · exact (ofRoot_eq_ok_or_error hp).resolve_left (mt (exists_ofRoot_iff hp).mp hvalue)
  · intro c hc
    have hquotient := isQuotient_product hc
    have hok := (ofRoot_eq_ok_iff hquotient.ne_nil).mpr hquotient
    refine ⟨LimbPoly.product [-base, 1] c, ?_, hok⟩
    simp [LimbPoly.Partial.product, hc]

/-- A quotient with signed coefficients of which one is wider than a limb. -/
theorem root_division_exact_signed :
    ofRoot [196608, -4587520003, -257680, 5] = .ok [-3, 70000, 5] ∧
      (∀ d, IsQuotient [196608, -4587520003, -257680, 5] d → d = [-3, 70000, 5]) ∧
      ofRoot [65536, 0, 1] = .error (.notRoot [65536, 0, 1]) ∧
      ∃ p, LimbPoly.Partial.product [-base, 1] [-3, 70000, 5] = p.map some ∧
        ofRoot p = .ok [-3, 70000, 5] := by
  have hok : ofRoot [196608, -4587520003, -257680, 5] = .ok [-3, 70000, 5] := by decide
  obtain ⟨-, hquotient, -⟩ := root_division_exact.1 [196608, -4587520003, -257680, 5] (by decide)
  obtain ⟨-, -, herror⟩ := root_division_exact.1 [65536, 0, 1] (by decide)
  exact ⟨hok, (hquotient _ hok).2.1, herror (by decide), root_division_exact.2 _ (by decide)⟩

/-! Over the field. -/

theorem residualsFrom_take (below : Felt) (p cs : List Felt) :
    residualsFrom below p (cs.take p.length) = residualsFrom below p cs := by
  induction p generalizing below cs with
  | nil => simp [residualsFrom]
  | cons x p ih =>
    cases cs with
    | nil => rfl
    | cons c cs => simp only [List.length_cons, List.take_succ_cons, residualsFrom, ih]

/-- Residuals that vanish tell the value up to the carry out of the leading coefficient. Without
that carry they can vanish for the value zero alone, with it they can for every value, and the
carries are the only ones in both cases. What lies beyond makes no difference. -/
theorem vanishing_carries (p : List Felt) (hp : p ≠ []) :
    (∀ cs, Vanish (residuals p cs) →
      Limb.valueFelt p = -(baseFelt ^ p.length) * cs.getD (p.length - 1) 0) ∧
    ((∃ cs, cs.length = p.length - 1 ∧ Vanish (residuals p cs)) ↔ Limb.valueFelt p = 0) ∧
    (∀ cs ds, cs.length = p.length - 1 → ds.length = p.length - 1 →
      Vanish (residuals p cs) → Vanish (residuals p ds) → cs = ds) ∧
    (∃! cs, cs.length = p.length ∧ Vanish (residuals p cs)) ∧
    ∀ cs, residuals p cs = residuals p (cs.take p.length) := by
  have hpos : 0 < p.length := List.length_pos_of_ne_nil hp
  refine ⟨fun cs h => ?_, ⟨?_, exists_vanish hp⟩, fun cs ds hcs hds hc hd => ?_, ?_, fun cs => ?_⟩
  · rw [valueFelt_of_vanish hp h]
    ring
  · rintro ⟨cs, hlen, h⟩
    exact valueFelt_eq_of_vanish (by omega) h
  · exact eq_of_vanish (hcs.trans hds.symm) (by omega) hc hd
  · refine ⟨solve 0 p, ⟨length_solve 0 p, vanish_residualsFrom_solve 0 p⟩, ?_⟩
    rintro cs ⟨hlen, h⟩
    exact (vanish_iff_eq_solve hlen).mp h
  · exact (residualsFrom_take 0 p cs).symm

/-- The value of `3 - 65536 X + X^2` is three and that of `-65536 X + X^2` is zero. -/
theorem vanishing_carries_three :
    (¬∃ cs : List Felt, cs.length = 2 ∧ Vanish (residuals [3, Felt.ofInt (-65536), 1] cs)) ∧
      (∃! cs : List Felt, cs.length = 3 ∧ Vanish (residuals [3, Felt.ofInt (-65536), 1] cs)) ∧
      ∃ cs : List Felt, cs.length = 2 ∧ Vanish (residuals [0, Felt.ofInt (-65536), 1] cs) := by
  obtain ⟨-, hzero, -, hone, -⟩ := vanishing_carries [3, Felt.ofInt (-65536), 1] (by decide)
  refine ⟨mt hzero.mp (by decide), hone, ?_⟩
  exact (vanishing_carries [0, Felt.ofInt (-65536), 1] (by decide)).2.1.mpr (by decide)

end WordTrace.Carry

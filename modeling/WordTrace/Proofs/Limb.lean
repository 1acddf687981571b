import WordTrace.Proofs.Field

/-! # Limbs and the numbers they spell

A number whose magnitude is below `base ^ n` is spelled by its `n` lowest limbs, and limbs that lie
between zero and the base are the only ones that spell their number.
-/

namespace WordTrace.Limb

/-- The numbers that `n` limbs can hold. -/
def Fits (n : ℕ) (z : ℤ) : Prop := z.natAbs < 65536 ^ n

instance (n : ℕ) (z : ℤ) : Decidable (Fits n z) := inferInstanceAs (Decidable (_ < _))

theorem fits_two_iff (z : ℤ) : Fits 2 z ↔ -wordLimit < z ∧ z < wordLimit := by
  simp only [Fits, wordLimit]
  omega

theorem not_fits_two_iff (z : ℤ) : ¬Fits 2 z ↔ wordLimit ≤ |z| := by
  rw [fits_two_iff, ← abs_lt, not_lt]

/-- Words are told apart in the field. -/
theorem eq_of_ofInt_eq {x y : ℤ} (hx : 0 ≤ x ∧ x < wordLimit) (hy : 0 ≤ y ∧ y < wordLimit)
    (h : Felt.ofInt x = Felt.ofInt y) : x = y := by
  refine Felt.eq_of_ofInt_eq h ?_
  rw [abs_lt]
  simp only [wordLimit, prime] at *
  omega

theorem ofInt_ne_zero {x : ℤ} (hx : 0 ≤ x ∧ x < wordLimit) (hne : x ≠ 0) : Felt.ofInt x ≠ 0 :=
  fun h => hne (eq_of_ofInt_eq hx (by decide) h)

theorem Fits.word (a : Word) : Fits 2 a.val := by
  have h := a.property
  rw [fits_two_iff]
  omega

theorem split_eq (z : ℤ) (n : ℕ) :
    split z n = if Fits n z then .ok (digits n z) else .error (.tooWide z n) := by
  have h : z.natAbs >>> (16 * n) = 0 ↔ Fits n z := by
    rw [Nat.shiftRight_eq_div_pow, Nat.div_eq_zero_iff, pow_mul]
    simp [Fits]
  simp only [split, h]

theorem split_of_fits {n : ℕ} {z : ℤ} (h : Fits n z) : split z n = .ok (digits n z) := by
  rw [split_eq, if_pos h]

theorem splitWord_of_fits {z : ℤ} (h : Fits 2 z) : splitWord z = .ok (digits 2 z) := split_of_fits h

theorem splitWord_of_not_fits {z : ℤ} (h : ¬Fits 2 z) : splitWord z = .error (.tooWide z 2) := by
  rw [splitWord, split_eq, if_neg h]
  rfl

/-- The lowest limbs spell the number, whatever its sign. -/
theorem value_digits {n : ℕ} {z : ℤ} (h : Fits n z) : value (digits n z) = z := by
  induction n generalizing z with
  | zero =>
    have hz : z = 0 := by simpa [Fits] using h
    rw [hz]
    rfl
  | succ n ih =>
    have hq : Fits n (z.tdiv base) := by
      simp only [Fits, pow_succ, Int.natAbs_tdiv] at h ⊢
      exact Nat.div_lt_of_lt_mul (by rwa [mul_comm] at h)
    rw [digits, value_cons, ih hq, Int.tmod_add_mul_tdiv]

theorem abs_lt_of_mem_digits {n : ℕ} {z x : ℤ} (h : x ∈ digits n z) : |x| < base := by
  induction n generalizing z with
  | zero => simp [digits] at h
  | succ n ih =>
    rcases List.mem_cons.mp h with rfl | h
    · exact abs_lt.mpr ⟨Int.lt_tmod_of_pos z (by decide), Int.tmod_lt_of_pos z (by decide)⟩
    · exact ih h

theorem nonneg_of_mem_digits {n : ℕ} {z x : ℤ} (hz : 0 ≤ z) (h : x ∈ digits n z) : 0 ≤ x := by
  induction n generalizing z with
  | zero => simp [digits] at h
  | succ n ih =>
    rcases List.mem_cons.mp h with rfl | h
    · exact Int.tmod_nonneg _ hz
    · exact ih (Int.tdiv_nonneg hz (by decide)) h

theorem digits_neg (n : ℕ) (z : ℤ) : digits n (-z) = (digits n z).map (- ·) := by
  induction n generalizing z with
  | zero => rfl
  | succ n ih => rw [digits, digits, Int.neg_tmod, Int.neg_tdiv, ih, List.map_cons]

theorem nonpos_of_mem_digits {n : ℕ} {z x : ℤ} (hz : z ≤ 0) (h : x ∈ digits n z) : x ≤ 0 := by
  rw [← neg_neg z, digits_neg] at h
  obtain ⟨y, hy, rfl⟩ := List.mem_map.mp h
  exact neg_nonpos.mpr (nonneg_of_mem_digits (neg_nonneg.mpr hz) hy)

theorem digits_bounds {n : ℕ} {z : ℤ} (hz : 0 ≤ z) : ∀ x ∈ digits n z, 0 ≤ x ∧ x < base :=
  fun _ hx => ⟨nonneg_of_mem_digits hz hx, (abs_lt.mp (abs_lt_of_mem_digits hx)).2⟩

theorem value_append (xs ys : List ℤ) :
    value (xs ++ ys) = value xs + base ^ xs.length * value ys := by
  induction xs with
  | nil => simp
  | cons x xs ih =>
    rw [List.cons_append, value_cons, value_cons, ih, List.length_cons]
    ring

theorem value_map_neg (xs : List ℤ) : value (xs.map (- ·)) = -value xs := by
  induction xs with
  | nil => rfl
  | cons x xs ih =>
    rw [List.map_cons, value_cons, value_cons, ih]
    ring

theorem value_bounds {xs : List ℤ} (h : ∀ x ∈ xs, 0 ≤ x ∧ x < base) :
    0 ≤ value xs ∧ value xs < base ^ xs.length := by
  induction xs with
  | nil => simp
  | cons x xs ih =>
    obtain ⟨hx, hx'⟩ := h x (List.mem_cons_self ..)
    obtain ⟨h0, hlt⟩ := ih fun y hy => h y (List.mem_cons_of_mem x hy)
    rw [value_cons, List.length_cons, pow_succ]
    simp only [base] at *
    constructor <;> omega

/-- Limbs between zero and the base are the digits of the number they spell. -/
theorem digits_value {xs : List ℤ} (h : ∀ x ∈ xs, 0 ≤ x ∧ x < base) :
    digits xs.length (value xs) = xs := by
  induction xs with
  | nil => rfl
  | cons x xs ih =>
    obtain ⟨hx, hx'⟩ := h x (List.mem_cons_self ..)
    have hrest := fun y hy => h y (List.mem_cons_of_mem x hy)
    have hv := (value_bounds hrest).1
    have hnonneg : 0 ≤ x + base * value xs := add_nonneg hx (mul_nonneg (by decide) hv)
    have hmod : (x + base * value xs).tmod base = x := by
      rw [Int.tmod_eq_emod_of_nonneg hnonneg, Int.add_mul_emod_self_left, Int.emod_eq_of_lt hx hx']
    have hdiv : (x + base * value xs).tdiv base = value xs := by
      rw [Int.tdiv_eq_ediv_of_nonneg hnonneg, Int.add_mul_ediv_left _ _ (by decide),
        Int.ediv_eq_zero_of_lt hx hx', zero_add]
    rw [List.length_cons, value_cons, digits, hmod, hdiv, ih hrest]

/-! Limbs in cells. -/

theorem valueFelt_map_ofInt (xs : List ℤ) :
    valueFelt (xs.map Felt.ofInt) = Felt.ofInt (value xs) := by
  induction xs with
  | nil => rfl
  | cons x xs ih => simp [ih]

/-- The cells that hold the `n` lowest limbs of a number. -/
def cells (n : ℕ) (z : ℤ) : List Felt := (digits n z).map Felt.ofInt

@[simp] theorem length_cells (n : ℕ) (z : ℤ) : (cells n z).length = n := by simp [cells]

theorem valueFelt_cells {n : ℕ} {z : ℤ} (h : Fits n z) : valueFelt (cells n z) = Felt.ofInt z := by
  rw [cells, valueFelt_map_ofInt, value_digits h]

/-- The number that cells spell when each is read back as a signed integer. -/
def number (xs : List Felt) : ℤ := value (xs.map Felt.signed)

theorem map_ofInt_signed (xs : List Felt) : (xs.map Felt.signed).map Felt.ofInt = xs := by
  rw [List.map_map]
  exact (List.map_congr_left fun x _ => Felt.ofInt_signed x).trans (List.map_id xs)

theorem ofInt_number (xs : List Felt) : Felt.ofInt (number xs) = valueFelt xs := by
  rw [number, ← valueFelt_map_ofInt, map_ofInt_signed]

/-- Every cell holds a limb between zero and the base. -/
def InRange (xs : List Felt) : Prop := ∀ x ∈ xs, x.val < 65536

instance (xs : List Felt) : Decidable (InRange xs) :=
  inferInstanceAs (Decidable (∀ x ∈ xs, _))

theorem signed_bounds {x : Felt} (h : x.val < 65536) : 0 ≤ x.signed ∧ x.signed < base := by
  rw [Felt.signed_eq_val (by simp only [prime]; omega)]
  simp only [base]
  omega

namespace InRange

variable {xs : List Felt}

theorem bounds (h : InRange xs) : ∀ z ∈ xs.map Felt.signed, 0 ≤ z ∧ z < base := by
  intro z hz
  obtain ⟨x, hx, rfl⟩ := List.mem_map.mp hz
  exact signed_bounds (h x hx)

theorem number_bounds (h : InRange xs) : 0 ≤ number xs ∧ number xs < base ^ xs.length := by
  simpa [number] using value_bounds h.bounds

/-- In range there is one way to spell a number. -/
theorem eq_cells (h : InRange xs) : xs = cells xs.length (number xs) := by
  have hdigits := digits_value h.bounds
  rw [List.length_map] at hdigits
  rw [cells, number, hdigits, map_ofInt_signed]

end InRange

/-- The representatives of the limbs of a non-negative number are the limbs. -/
theorem map_val_cells {n : ℕ} {z : ℤ} (hz : 0 ≤ z) :
    (cells n z).map (fun x => (x.val : ℤ)) = digits n z := by
  rw [cells, List.map_map]
  refine (List.map_congr_left fun d hd => ?_).trans (List.map_id _)
  have hlt := (abs_lt.mp (abs_lt_of_mem_digits hd)).2
  exact Felt.val_ofInt (nonneg_of_mem_digits hz hd) (hlt.trans (by decide))

theorem inRange_cells {n : ℕ} {z : ℤ} (hz : 0 ≤ z) : InRange (cells n z) := by
  intro x hx
  obtain ⟨d, hd, rfl⟩ := List.mem_map.mp hx
  have h0 := nonneg_of_mem_digits hz hd
  have hlt := (abs_lt.mp (abs_lt_of_mem_digits hd)).2
  have hval := Felt.val_ofInt h0 (hlt.trans (by decide))
  simp only [base] at hlt
  omega

/-- Limbs below the base in magnitude are read back from the field as they were. -/
theorem map_signed_ofInt {xs : List ℤ} (h : ∀ x ∈ xs, |x| < base) :
    (xs.map Felt.ofInt).map Felt.signed = xs := by
  rw [List.map_map]
  refine (List.map_congr_left fun x hx => ?_).trans (List.map_id _)
  have hlt := abs_lt.mp (h x hx)
  exact Felt.signed_ofInt (by simp only [base, prime] at *; omega)

/-- Read back as signed integers the cells are the limbs, whatever the sign of the number. -/
theorem map_signed_cells (n : ℕ) (z : ℤ) : (cells n z).map Felt.signed = digits n z :=
  map_signed_ofInt fun _ => abs_lt_of_mem_digits

theorem number_cells {n : ℕ} {z : ℤ} (h : Fits n z) : number (cells n z) = z := by
  rw [number, map_signed_cells, value_digits h]

end WordTrace.Limb

import WordTrace.Proofs.Row

/-! # Signed limbs through a row and back

Limbs of one sign and a number that fits in them determine each other. Written into the columns of a
row, where negative limbs turn into elements of the upper half of the field, and read back as signed
integers, the limbs and the number are what they were.
-/

namespace WordTrace
namespace Limb

/-- The limbs spell the number, each is below the base in magnitude, and none has the opposite
sign. -/
structure IsSplit (z : ℤ) (n : ℕ) (limbs : List ℤ) : Prop where
  length_eq : limbs.length = n
  magnitude_lt : ∀ x ∈ limbs, |x| < base
  nonneg : 0 ≤ z → ∀ x ∈ limbs, 0 ≤ x
  nonpos : z ≤ 0 → ∀ x ∈ limbs, x ≤ 0
  value_eq : value limbs = z

/-- All limbs are non-negative or all are non-positive, and below the base in magnitude. -/
def OneSign (limbs : List ℤ) : Prop :=
  (∀ x ∈ limbs, 0 ≤ x ∧ x < base) ∨ ∀ x ∈ limbs, -base < x ∧ x ≤ 0

instance (limbs : List ℤ) : Decidable (OneSign limbs) := inferInstanceAs (Decidable (_ ∨ _))

theorem fits_iff (n : ℕ) (z : ℤ) : Fits n z ↔ |z| < 2 ^ (16 * n) := by
  rw [Fits, pow_mul, Int.abs_eq_natAbs]
  norm_cast

theorem splitInto_natCast (z : ℤ) (n : ℕ) :
    splitInto z n = if Fits n z then .ok (digits n z) else .error (.tooWide z n) := by
  rw [splitInto, if_neg (not_lt.mpr (Int.natCast_nonneg n)), Int.toNat_natCast, split_eq]

theorem splitInto_eq_ok_iff {z : ℤ} {n : ℕ} {limbs : List ℤ} :
    splitInto z n = .ok limbs ↔ Fits n z ∧ limbs = digits n z := by
  rw [splitInto_natCast]
  split_ifs with h <;> simp [h, eq_comm]

theorem isSplit_digits {z : ℤ} {n : ℕ} (h : Fits n z) : IsSplit z n (digits n z) where
  length_eq := length_digits n z
  magnitude_lt _ hx := abs_lt_of_mem_digits hx
  nonneg hz _ hx := nonneg_of_mem_digits hz hx
  nonpos hz _ hx := nonpos_of_mem_digits hz hx
  value_eq := value_digits h

theorem splitInto_neg {z : ℤ} {n : ℕ} {limbs : List ℤ} (h : splitInto z n = .ok limbs) :
    splitInto (-z) n = .ok (limbs.map (- ·)) := by
  obtain ⟨hfits, rfl⟩ := splitInto_eq_ok_iff.mp h
  rw [splitInto_eq_ok_iff, Fits, Int.natAbs_neg, digits_neg]
  exact ⟨hfits, rfl⟩

theorem splitInto_value_of_nonneg {limbs : List ℤ} (h : ∀ x ∈ limbs, 0 ≤ x ∧ x < base) :
    splitInto (value limbs) limbs.length = .ok limbs := by
  obtain ⟨h0, hlt⟩ := value_bounds h
  have hfits : Fits limbs.length (value limbs) := by
    rw [fits_iff, pow_mul, abs_of_nonneg h0]
    exact hlt
  exact splitInto_eq_ok_iff.mpr ⟨hfits, (digits_value h).symm⟩

/-- No other limbs of one sign spell the number. -/
theorem OneSign.splitInto_value {limbs : List ℤ} (h : OneSign limbs) :
    splitInto (value limbs) limbs.length = .ok limbs := by
  rcases h with h | h
  · exact splitInto_value_of_nonneg h
  · have hneg : ∀ x ∈ limbs.map (- ·), 0 ≤ x ∧ x < base := by
      rw [List.forall_mem_map]
      intro x hx
      have := h x hx
      omega
    have hsplit := splitInto_neg (splitInto_value_of_nonneg hneg)
    rw [value_map_neg, neg_neg, List.length_map] at hsplit
    simpa using hsplit

theorem IsSplit.oneSign {z : ℤ} {n : ℕ} {limbs : List ℤ} (h : IsSplit z n limbs) :
    OneSign limbs := by
  rcases le_total 0 z with hz | hz
  · exact .inl fun x hx => ⟨h.nonneg hz x hx, (abs_lt.mp (h.magnitude_lt x hx)).2⟩
  · exact .inr fun x hx => ⟨(abs_lt.mp (h.magnitude_lt x hx)).1, h.nonpos hz x hx⟩

/-- The limbs that a number is split into are the limbs of its sign that spell it. -/
theorem splitInto_eq_ok_iff_isSplit {z : ℤ} {n : ℕ} {limbs : List ℤ} :
    splitInto z n = .ok limbs ↔ IsSplit z n limbs := by
  constructor
  · intro h
    obtain ⟨hfits, rfl⟩ := splitInto_eq_ok_iff.mp h
    exact isSplit_digits hfits
  · intro h
    have hsplit := h.oneSign.splitInto_value
    rwa [h.value_eq, h.length_eq] at hsplit

end Limb

namespace Recorder
open Limb (base)

/-- A register with a column for each limb, no two of them the same, takes limbs below the base in
magnitude and gives them back, and every other cell of the window is kept. -/
theorem exists_on_write {side : Side} {register : Register} {limbs : List ℤ} (w : Window)
    (hr : register.Nodup) (hlen : limbs.length ≤ register.length) (h : ∀ x ∈ limbs, |x| < base) :
    ∃ v, (write side register limbs).on w = (.ok (), v) ∧
      ((v.get side).read (register.take limbs.length)).signed = limbs ∧
      ∀ s c, s ≠ side ∨ c ∉ register.take limbs.length → (v.get s).get c = (w.get s).get c := by
  have hrow : (w.modify side (·.write register (limbs.map Felt.ofInt))).get side =
      (w.get side).write (register.take limbs.length) (limbs.map Felt.ofInt) := by
    rw [Window.get_modify, if_pos rfl, ← Row.write_take, List.length_map]
  refine ⟨_, on_write side register limbs w hlen, ?_, ?_⟩
  · have hfull : (limbs.map Felt.ofInt).length = (register.take limbs.length).length := by
      rw [List.length_map, List.length_take, min_eq_left hlen]
    rw [hrow, Row.read, Row.limbs_write_self _ (hr.sublist (List.take_sublist _ _)) hfull]
    exact Limb.map_signed_ofInt h
  · intro s c hc
    by_cases hs : s = side
    · subst hs
      rw [hrow]
      exact Row.get_write_of_not_mem _ _ (hc.resolve_left (not_not_intro rfl))
    · rw [Window.get_modify, if_neg hs]

end Recorder

namespace Limb

/-- A number is split if and only if it fits, into the limbs of its sign that spell it, and limbs of
one sign are what their number is split into. In a row such limbs keep their signs and touch no
other column, since integers and field elements determine each other between the two halves of the
field. -/
theorem signed_round_trip :
    (∀ (z : ℤ) (n : ℕ),
      ((∃ limbs, splitInto z n = .ok limbs) ↔ |z| < 2 ^ (16 * n)) ∧
      (2 ^ (16 * n) ≤ |z| → splitInto z n = .error (.tooWide z n)) ∧
      ∀ limbs, splitInto z n = .ok limbs ↔ IsSplit z n limbs) ∧
    (∀ limbs : List ℤ, OneSign limbs → splitInto (value limbs) limbs.length = .ok limbs) ∧
    (∀ (z : ℤ) (n : ℕ) (limbs : List ℤ), splitInto z n = .ok limbs →
      ∀ (side : Side) (register : Register) (w : Window),
        register.Nodup → n ≤ register.length →
        ∃ v, (Recorder.write side register limbs).on w = (.ok (), v) ∧
          ((v.get side).read (register.take n)).signed = limbs ∧
          ∀ s c, s ≠ side ∨ c ∉ register.take n → (v.get s).get c = (w.get s).get c) ∧
    (∀ x : ℤ, -(((prime : ℤ) - 1) / 2) ≤ x → x ≤ ((prime : ℤ) - 1) / 2 →
      (Felt.ofInt x).signed = x) ∧
    ∀ e : Felt, Felt.ofInt e.signed = e := by
  refine ⟨fun z n => ⟨?_, ?_, fun limbs => splitInto_eq_ok_iff_isSplit⟩,
    fun limbs => OneSign.splitInto_value, ?_, ?_, Felt.ofInt_signed⟩
  · rw [← fits_iff]
    constructor
    · rintro ⟨limbs, h⟩
      exact (splitInto_eq_ok_iff.mp h).1
    · intro h
      exact ⟨_, splitInto_eq_ok_iff.mpr ⟨h, rfl⟩⟩
  · intro h
    rw [splitInto_natCast, if_neg (by rwa [fits_iff, not_lt])]
  · intro z n limbs h side register w hr hn
    have hsplit := splitInto_eq_ok_iff_isSplit.mp h
    obtain rfl := hsplit.length_eq
    exact Recorder.exists_on_write w hr hn hsplit.magnitude_lt
  · intro x hlow hhigh
    apply Felt.signed_ofInt
    simp only [prime] at *
    omega

/-- A negative number in four of five columns out of order, the fifth of which is in use, a number
one too large, and the least integer that the field tells apart from the others. -/
theorem signed_round_trip_negative :
    (∃ limbs, splitInto (-65538) 4 = .ok limbs ∧ IsSplit (-65538) 4 limbs) ∧
    splitInto 4294967296 2 = .error (.tooWide 4294967296 2) ∧
    splitInto (value [-2, -1, 0, 0]) 4 = .ok [-2, -1, 0, 0] ∧
    (∃ v, (Recorder.write .current [27, 3, 20, 9, 0] [-2, -1, 0, 0]).on
        (Window.alone (Row.zero.set 0 9)) = (.ok (), v) ∧
      (v.row.read [27, 3, 20, 9]).signed = [-2, -1, 0, 0] ∧
      v.row.get 0 = 9 ∧ v.next = Row.zero) ∧
    (Felt.ofInt (-9223372034707292160)).signed = -9223372034707292160 := by
  obtain ⟨hsplit, hvalue, hrow, hsigned, -⟩ := signed_round_trip
  obtain ⟨limbs, hlimbs⟩ := (hsplit (-65538) 4).1.mpr (by decide)
  have hok : splitInto (-65538) 4 = .ok [-2, -1, 0, 0] := by decide
  obtain ⟨v, hv, hread, hkept⟩ := hrow (-65538) 4 _ hok .current [27, 3, 20, 9, 0]
    (Window.alone (Row.zero.set 0 9)) (by decide) (by decide)
  refine ⟨⟨limbs, hlimbs, ((hsplit _ _).2.2 _).mp hlimbs⟩, (hsplit 4294967296 2).2.1 (by decide),
    hvalue [-2, -1, 0, 0] (by decide), ⟨v, hv, hread, ?_, ?_⟩, hsigned _ (by decide) (by decide)⟩
  · exact (hkept .current 0 (.inr (by decide))).trans (by decide)
  · exact Row.ext fun c => hkept .next c (.inl (by decide))

end Limb
end WordTrace

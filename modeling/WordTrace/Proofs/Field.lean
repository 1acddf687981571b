import Mathlib.Algebra.Field.Basic
import Mathlib.Algebra.Order.Group.Unbundled.Int
import Mathlib.Data.ZMod.Basic
import Mathlib.FieldTheory.Finite.Basic
import Mathlib.NumberTheory.LucasPrimality
import Mathlib.Tactic.LinearCombination
import Mathlib.Tactic.NormNum.Prime
import Mathlib.Tactic.Ring
import WordTrace.Table
import WordTrace.Trace

/-! # The cells form a field

The arithmetic of cells is that of the integers modulo a prime. Integers enter by a ring
homomorphism, and an equation between integers that differ by less than the prime holds in the
field only if it holds for the integers.
-/

namespace WordTrace.Felt

instance : NatCast Felt := ⟨ofNat⟩
instance : IntCast Felt := ⟨ofInt⟩
instance : SMul ℕ Felt := ⟨fun n x => ofNat n * x⟩
instance : SMul ℤ Felt := ⟨fun z x => ofInt z * x⟩
instance : Pow Felt ℕ := ⟨fun x n => npowRec n x⟩

def toZMod (x : Felt) : ZMod prime := (x.val : ZMod prime)

instance : NeZero prime := ⟨prime_pos.ne'⟩

theorem toZMod_injective : Function.Injective toZMod := by
  intro x y h
  apply ext
  have hval := (ZMod.natCast_eq_natCast_iff' x.val y.val prime).mp h
  rwa [Nat.mod_eq_of_lt x.val_lt, Nat.mod_eq_of_lt y.val_lt] at hval

@[simp] theorem toZMod_ofNat (n : ℕ) : (ofNat n).toZMod = n := by
  simp [toZMod]

@[simp] theorem toZMod_ofInt (z : ℤ) : (ofInt z).toZMod = z := by
  have h : (((z % prime).toNat : ℕ) : ℤ) = z % prime :=
    Int.toNat_of_nonneg (Int.emod_nonneg z (by decide))
  change (((z % prime).toNat : ℕ) : ZMod prime) = z
  rw [← Int.cast_natCast, h, ZMod.intCast_mod]

@[simp] theorem toZMod_zero : (0 : Felt).toZMod = 0 := by simp [toZMod]
@[simp] theorem toZMod_one : (1 : Felt).toZMod = 1 := by simp [toZMod]
@[simp] theorem toZMod_add (x y : Felt) : (x + y).toZMod = x.toZMod + y.toZMod := by
  simp [toZMod]
@[simp] theorem toZMod_mul (x y : Felt) : (x * y).toZMod = x.toZMod * y.toZMod := by
  simp [toZMod]
@[simp] theorem toZMod_neg (x : Felt) : (-x).toZMod = -x.toZMod := by
  simp [toZMod, Nat.cast_sub x.val_lt.le]
@[simp] theorem toZMod_sub (x y : Felt) : (x - y).toZMod = x.toZMod - y.toZMod := by
  simp [toZMod, Nat.cast_sub y.val_lt.le, sub_eq_add_neg]

theorem toZMod_pow (x : Felt) (n : ℕ) : (x ^ n).toZMod = x.toZMod ^ n := by
  induction n with
  | zero => exact toZMod_one.trans (pow_zero _).symm
  | succ n ih =>
    change (x ^ n * x).toZMod = _
    rw [toZMod_mul, ih, pow_succ]

instance : CommRing Felt :=
  toZMod_injective.commRing toZMod toZMod_zero toZMod_one toZMod_add toZMod_mul toZMod_neg
    toZMod_sub (fun n x => (toZMod_mul _ x).trans (by simp))
    (fun z x => (toZMod_mul _ x).trans (by simp)) toZMod_pow toZMod_ofNat toZMod_ofInt

/-- Squaring and multiplying computes the power of an exponent that has no more digits. -/
theorem power_eq (bits : ℕ) (x : Felt) (n : ℕ) (h : n < 2 ^ bits) : power bits x n = x ^ n := by
  induction bits generalizing x n with
  | zero =>
    have hn : n = 0 := by omega
    rw [hn, power, pow_zero]
  | succ bits ih =>
    have hhalf := ih (x * x) (n / 2) (by rw [pow_succ] at h; omega)
    have hsquare : (x * x) ^ (n / 2) = x ^ (2 * (n / 2)) := by rw [pow_mul, sq]
    simp only [power, hhalf, hsquare]
    split
    · congr 1
      omega
    · rw [← pow_succ']
      congr 1
      omega

/-- Lucas's test with seven as primitive root; the prime less one is `2^32 * 3 * 5 * 17 * 257 *
65537`. -/
theorem prime_prime : prime.Prime := by
  have hpower (n : ℕ) (hn : n < 2 ^ 64) :
      (7 : ZMod prime) ^ n = (power 64 (ofNat 7) n).toZMod := by
    rw [power_eq 64 _ n hn, toZMod_pow, toZMod_ofNat]
    rfl
  have hone (n : ℕ) (hn : n < 2 ^ 64) (h : power 64 (ofNat 7) n ≠ 1) :
      (7 : ZMod prime) ^ n ≠ 1 := by
    rw [hpower n hn, ← toZMod_one]
    exact fun he => h (toZMod_injective he)
  apply lucas_primality prime 7
  · rw [hpower _ (by decide), show power 64 (ofNat 7) (prime - 1) = 1 by decide +kernel, toZMod_one]
  · intro q hq hdvd
    have hfactor : prime - 1 = 2 ^ 32 * (3 * (5 * (17 * (257 * 65537)))) := by decide
    have heq {r : ℕ} (hr : r.Prime) (h : q ∣ r) : q = r := (Nat.prime_dvd_prime_iff_eq hq hr).mp h
    have hmem : q = 2 ∨ q = 3 ∨ q = 5 ∨ q = 17 ∨ q = 257 ∨ q = 65537 := by
      rw [hfactor, hq.dvd_mul, hq.dvd_mul, hq.dvd_mul, hq.dvd_mul, hq.dvd_mul] at hdvd
      exact hdvd.imp (fun h => heq Nat.prime_two (hq.dvd_of_dvd_pow h))
        (.imp (heq Nat.prime_three) (.imp (heq Nat.prime_five) (.imp (heq (by norm_num))
          (.imp (heq (by norm_num)) (heq (by norm_num))))))
    rcases hmem with rfl | rfl | rfl | rfl | rfl | rfl <;>
      exact hone _ (by decide) (by decide +kernel)

instance : Fact prime.Prime := ⟨prime_prime⟩

theorem mul_inv_self {x : Felt} (h : x ≠ 0) : x * x⁻¹ = 1 := by
  have hz : x.toZMod ≠ 0 := fun he => h (toZMod_injective (he.trans toZMod_zero.symm))
  have hinv : x⁻¹ = x ^ (prime - 2) := power_eq 64 x (prime - 2) (by decide)
  apply toZMod_injective
  rw [hinv, toZMod_mul, toZMod_pow, ← pow_succ', toZMod_one]
  exact ZMod.pow_card_sub_one_eq_one hz

instance : Field Felt where
  inv := Inv.inv
  exists_pair_ne := ⟨0, 1, by decide⟩
  mul_inv_cancel _ := mul_inv_self
  inv_zero := by decide +kernel
  nnqsmul := _
  nnqsmul_def _ _ := rfl
  qsmul := _
  qsmul_def _ _ := rfl

/-! Integers in the field. -/

@[simp] theorem ofInt_zero : ofInt 0 = 0 := rfl
@[simp] theorem ofInt_one : ofInt 1 = 1 := rfl
@[simp] theorem ofInt_add (x y : ℤ) : ofInt (x + y) = ofInt x + ofInt y := Int.cast_add x y
@[simp] theorem ofInt_sub (x y : ℤ) : ofInt (x - y) = ofInt x - ofInt y := Int.cast_sub x y
@[simp] theorem ofInt_neg (x : ℤ) : ofInt (-x) = -ofInt x := Int.cast_neg x
@[simp] theorem ofInt_mul (x y : ℤ) : ofInt (x * y) = ofInt x * ofInt y := Int.cast_mul x y
@[simp] theorem ofInt_base : ofInt Limb.base = Limb.baseFelt := rfl

theorem ofInt_eq_zero_iff (z : ℤ) : ofInt z = 0 ↔ (prime : ℤ) ∣ z := by
  rw [← ZMod.intCast_zmod_eq_zero_iff_dvd, ← toZMod_ofInt, ← toZMod_zero]
  exact toZMod_injective.eq_iff.symm

/-- An equation in the field is one of integers when the two sides are less than the prime
apart. -/
theorem eq_of_ofInt_eq {x y : ℤ} (h : ofInt x = ofInt y) (hb : |x - y| < prime) : x = y := by
  have hd := (ofInt_eq_zero_iff (x - y)).mp (by rw [ofInt_sub, h, sub_self])
  exact sub_eq_zero.mp (Int.eq_zero_of_abs_lt_dvd hd hb)

theorem eq_zero_of_ofInt {x : ℤ} (h : ofInt x = 0) (hb : |x| < prime) : x = 0 :=
  eq_of_ofInt_eq h (by simpa using hb)

/-- The representative of a number below the prime is the number. -/
theorem val_ofInt {z : ℤ} (h0 : 0 ≤ z) (h : z < prime) : ((ofInt z).val : ℤ) = z := by
  change ((z % prime).toNat : ℤ) = z
  rw [Int.emod_eq_of_lt h0 h, Int.toNat_of_nonneg h0]

theorem ofInt_val (x : Felt) : ofInt x.val = x := by
  apply toZMod_injective
  rw [toZMod_ofInt, Int.cast_natCast]
  rfl

theorem ofInt_signed (x : Felt) : ofInt x.signed = x := by
  unfold signed
  split
  · have hp : ofInt (prime : ℤ) = 0 := (ofInt_eq_zero_iff _).mpr (dvd_refl _)
    rw [ofInt_sub, hp, sub_zero, ofInt_val]
  · exact ofInt_val x

/-- Representatives of the lower half are read back as they are. -/
theorem signed_eq_val {x : Felt} (h : x.val ≤ prime / 2) : x.signed = x.val :=
  if_neg (Nat.not_lt.mpr h)

theorem signed_bounds (x : Felt) : -(prime : ℤ) < 2 * x.signed ∧ 2 * x.signed < prime := by
  have hx := x.val_lt
  unfold signed
  split <;> simp only [prime] at * <;> omega

/-- Reading back undoes the reduction of every integer of less than half the prime. -/
theorem signed_ofInt {z : ℤ} (h : -(prime : ℤ) < 2 * z ∧ 2 * z < prime) : (ofInt z).signed = z := by
  apply eq_of_ofInt_eq (ofInt_signed _)
  have hs := signed_bounds (ofInt z)
  rw [abs_lt]
  omega

theorem booleanity_eq_zero_iff (x : Felt) : booleanity x = 0 ↔ x = 0 ∨ x = 1 := by
  rw [booleanity, mul_eq_zero, sub_eq_zero]

theorem baseFelt_ne_zero : Limb.baseFelt ≠ 0 := by decide

end WordTrace.Felt

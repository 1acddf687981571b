/-!
# Field elements

Arithmetic modulo the prime `2^64 - 2^32 + 1`. An element is kept as its representative below the
prime, so two elements are equal exactly when their representatives are. Integers of either sign
enter through `Felt.ofInt` and are read back through `Felt.signed`.
-/

namespace WordTrace

def prime : Nat := 18446744069414584321

theorem prime_pos : 0 < prime := by decide

structure Felt where
  val : Nat
  val_lt : val < prime
deriving DecidableEq

namespace Felt

theorem ext {x y : Felt} (h : x.val = y.val) : x = y := by
  cases x; cases y; cases h; rfl

def ofNat (n : Nat) : Felt := ⟨n % prime, Nat.mod_lt n prime_pos⟩

theorem toNat_emod_prime_lt (z : Int) : (z % prime).toNat < prime := by
  have h : (0 : Int) < prime := by decide
  have := Int.emod_lt_of_pos z h
  have := Int.emod_nonneg z (Int.ne_of_gt h)
  omega

/-- The least non-negative residue. -/
def ofInt (z : Int) : Felt := ⟨(z % prime).toNat, toNat_emod_prime_lt z⟩

/-- The representative of least magnitude; the upper half of the field is negative. -/
def signed (x : Felt) : Int :=
  if prime / 2 < x.val then (x.val : Int) - prime else x.val

instance : Zero Felt := ⟨ofNat 0⟩
instance : One Felt := ⟨ofNat 1⟩
instance : Add Felt := ⟨fun x y => ofNat (x.val + y.val)⟩
instance : Mul Felt := ⟨fun x y => ofNat (x.val * y.val)⟩
instance : Neg Felt := ⟨fun x => ofNat (prime - x.val)⟩
instance : Sub Felt := ⟨fun x y => ofNat (x.val + (prime - y.val))⟩

@[simp] theorem val_ofNat (n : Nat) : (ofNat n).val = n % prime := rfl
@[simp] theorem val_zero : (0 : Felt).val = 0 := rfl
@[simp] theorem val_one : (1 : Felt).val = 1 := rfl
@[simp] theorem val_add (x y : Felt) : (x + y).val = (x.val + y.val) % prime := rfl
@[simp] theorem val_mul (x y : Felt) : (x * y).val = (x.val * y.val) % prime := rfl
@[simp] theorem val_neg (x : Felt) : (-x).val = (prime - x.val) % prime := rfl
@[simp] theorem val_sub (x y : Felt) : (x - y).val = (x.val + (prime - y.val)) % prime := rfl

/-- The power of `x` whose exponent is spelled by the lowest `bits` binary digits of `n`. -/
def power : Nat → Felt → Nat → Felt
  | 0, _, _ => 1
  | bits + 1, x, n =>
    let rest := power bits (x * x) (n / 2)
    if n % 2 = 0 then rest else x * rest

/-- By Fermat's little theorem the power `prime - 2` inverts every nonzero element. -/
instance : Inv Felt := ⟨fun x => power 64 x (prime - 2)⟩

/-- Zero exactly at the two truth values. -/
def booleanity (x : Felt) : Felt := x * (x - 1)

end Felt
end WordTrace

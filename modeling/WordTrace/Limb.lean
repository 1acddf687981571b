import WordTrace.Fault
import WordTrace.Felt

/-!
# Limbs

Numbers as limbs in base `2^16`, least significant first. The limbs of a negative number are the
negated limbs of its magnitude, which is what truncated division yields.
-/

namespace WordTrace.Limb

abbrev base : Int := 65536

/-- The limbs of a number are a polynomial; this is its value at `2^16`. -/
def value : List Int → Int
  | [] => 0
  | x :: xs => x + base * value xs

@[simp] theorem value_nil : value [] = 0 := rfl
@[simp] theorem value_cons (x : Int) (xs : List Int) : value (x :: xs) = x + base * value xs := rfl

def baseFelt : Felt := Felt.ofNat 65536

/-- The same evaluation over the field. -/
def valueFelt : List Felt → Felt
  | [] => 0
  | x :: xs => x + baseFelt * valueFelt xs

@[simp] theorem valueFelt_nil : valueFelt [] = 0 := rfl
@[simp] theorem valueFelt_cons (x : Felt) (xs : List Felt) :
    valueFelt (x :: xs) = x + baseFelt * valueFelt xs := rfl

/-- The lowest `n` limbs. -/
def digits : Nat → Int → List Int
  | 0, _ => []
  | n + 1, z => z.tmod base :: digits n (z.tdiv base)

@[simp] theorem length_digits (n : Nat) (z : Int) : (digits n z).length = n := by
  induction n generalizing z with
  | zero => rfl
  | succ n ih => simp [digits, ih]

/-- All limbs of a number that `n` limbs can hold. -/
def split (z : Int) (n : Nat) : Except Fault (List Int) :=
  if z.natAbs >>> (16 * n) = 0 then .ok (digits n z) else .error (.tooWide z n)

/-- Splitting into a requested count, which must not be negative. -/
def splitInto (z n : Int) : Except Fault (List Int) :=
  if n < 0 then .error .negativeShift else split z n.toNat

/-- A 32-bit word has two limbs. -/
def splitWord (z : Int) : Except Fault (List Int) := split z 2

end WordTrace.Limb

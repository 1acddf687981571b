import WordTrace.Carry
import WordTrace.Recorder

/-!
# Bounded remainders

The second row of a division shows that the modulus is zero, or that it has an inverse and exceeds
the remainder. What the remainder lacks to the modulus less one is the gap.
-/

namespace WordTrace.Remainder

/-- Division by zero gives zero. -/
def quotient (dividend modulus : Int) : Int :=
  if modulus = 0 then 0 else dividend.fdiv modulus

/-- Remainders take the sign of the modulus, and are zero for a zero modulus. -/
def remainder (dividend modulus : Int) : Int :=
  if modulus = 0 then 0 else dividend.fmod modulus

/-- The carries of a polynomial that has the root `2^16`. -/
def writeCarries (p : List Int) : Recorder Unit := do
  Recorder.write .next Layout.productCarry (← Carry.ofRoot p)

/-- A zero modulus sets the flag and nothing else. -/
def record (modulus remainder : Int) : Recorder Unit :=
  if modulus = 0 then
    Recorder.assign .next Layout.modulusIsZero 1
  else if modulus < 0 ∨ (prime : Int) ≤ modulus then
    throw (.notScalar modulus)
  else do
    Recorder.assign .next Layout.modulusInverse (Felt.ofInt modulus)⁻¹
    Recorder.writeWord .next Layout.gap (modulus - remainder - 1)

/-- The carries show that the polynomial `p` has the root `2^16`. With the flag set only a zero
quotient and a zero remainder are left, without it the polynomial and the bound. -/
def identities (next : Row) (modulus remainder quotient p : List Felt) : List Felt :=
  let isZero := next.get Layout.modulusIsZero
  let m := Limb.valueFelt modulus
  let notZero := 1 - isZero
  let carries := (next.limbs Layout.productCarry).take (p.length - 1)
  let gap := Limb.valueFelt (next.limbs Layout.gap)
  [Felt.booleanity isZero, m * next.get Layout.modulusInverse - notZero, isZero * m] ++
    (Carry.residuals p carries).map (notZero * ·) ++
    [notZero * (m - Limb.valueFelt remainder - 1 - gap)] ++
    quotient.map (isZero * ·) ++
    remainder.map (isZero * ·)

end WordTrace.Remainder

/-!
# Binary floating-point numbers

Numbers of the form `± significand * 2^exponent` with a bounded significand, kept exactly. Rationals
enter by rounding to the nearest number of a format, halves to the even significand.
-/

namespace WordTrace

inductive Binary
  | nan
  | infinite (negative : Bool)
  | finite (negative : Bool) (significand : Nat) (exponent : Int)
deriving DecidableEq

/-- Significands have at most `precision` binary digits; exponents range from `least` to `greatest`.
Texts do without a decimal exponent up to `wholeDigits` digits before the point. -/
structure Binary.Format where
  precision : Nat
  least : Int
  greatest : Int
  wholeDigits : Int

namespace Binary

def double : Format := ⟨53, -1074, 971, 16⟩
def single : Format := ⟨24, -149, 104, 6⟩

/-- A power of two as numerator and denominator. -/
def scale (e : Int) : Nat × Nat := if e ≥ 0 then (1 <<< e.toNat, 1) else (1, 1 <<< (-e).toNat)

/-- The nearest whole number, of two the even one. -/
def roundDiv (num den : Nat) : Nat :=
  let q := num / den
  let rest := 2 * (num % den)
  if rest < den then q
  else if den < rest then q + 1
  else if q % 2 = 0 then q else q + 1

/-- The exponent that leaves `num / den` with exactly `precision` binary digits, if the format has
it, else its least. -/
def Format.exponent (f : Format) (num den : Nat) : Int :=
  let guess : Int := (num.log2 : Int) - den.log2 - f.precision
  let (up, down) := scale guess
  let e := if 1 <<< f.precision ≤ num * down / (den * up) then guess + 1 else guess
  if e < f.least then f.least else e

def Format.round (f : Format) (negative : Bool) (num den : Nat) : Binary :=
  if num = 0 then .finite negative 0 f.least
  else
    let e := f.exponent num den
    let (up, down) := scale e
    let m := roundDiv (num * down) (den * up)
    let (m, e) := if m = 1 <<< f.precision then (m / 2, e + 1) else (m, e)
    if f.greatest < e then .infinite negative else .finite negative m e

def toFormat (f : Format) : Binary → Binary
  | finite negative m e => f.round negative (m * (scale e).1) (scale e).2
  | x => x

/-- The integer that a number is, if it is one. -/
def toInt? : Binary → Option Int
  | finite negative m e =>
    let (up, down) := scale e
    let z : Int := (m * up / down : Nat)
    if m * up % down = 0 then some (if negative then -z else z) else none
  | _ => none

end Binary
end WordTrace

import WordTrace.Binary

/-!
# Decimal text of binary numbers

A number is written with the fewest significant digits that round back to it, and among those the
nearest. The point stands among the digits while the number itself, not its rounded digits, is at
least `10^-4` and has no more digits before the point than the format allows. An exponent follows
otherwise.
-/

namespace WordTrace.Binary

/-- The numbers that round to a positive number, with the number itself, over one denominator. -/
structure Interval where
  low : Nat
  mid : Nat
  high : Nat
  den : Nat
  closed : Bool

def interval (f : Format) (m : Nat) (e : Int) : Interval :=
  let (up, down) := scale e
  let below := if m = 1 <<< (f.precision - 1) ∧ f.least < e then 1 else 2
  ⟨(4 * m - below) * up, 4 * m * up, (4 * m + 2) * up, 4 * down, m % 2 = 0⟩

def Interval.contains (i : Interval) (num den : Nat) : Bool :=
  let x := num * i.den
  let low := i.low * den
  let high := i.high * den
  if i.closed then low ≤ x && x ≤ high else low < x && x < high

/-- How many zeros follow the point before the first digit. -/
def leadingZeros : Nat → Nat → Nat → Nat
  | 0, _, _ => 0
  | fuel + 1, num, den => if den ≤ num * 10 then 0 else leadingZeros fuel (num * 10) den + 1

/-- The number lies below this power of ten and not below the one before. -/
def decimalPosition (num den : Nat) : Int :=
  if den ≤ num then (Nat.toDigits 10 (num / den)).length
  else -(leadingZeros (den.log2 + 1) num den : Int)

/-- A power of ten as numerator and denominator. -/
def decimalScale (place : Int) : Nat × Nat :=
  if place ≥ 0 then (Nat.pow 10 place.toNat, 1) else (1, Nat.pow 10 (-place).toNat)

/-- Of the two neighbours with a given last place the one that rounds back, the nearer if
both do. -/
def Interval.candidate? (i : Interval) (place : Int) : Option Nat :=
  let (up, down) := decimalScale place
  let c := i.mid * down / (i.den * up)
  let nearest := roundDiv (i.mid * down) (i.den * up)
  let lower := i.contains (c * up) down
  let upper := i.contains ((c + 1) * up) down
  match lower, upper with
  | true, true => some nearest
  | true, false => some c
  | false, true => some (c + 1)
  | false, false => none

/-- Digits and the place of the last one, for the first count of digits that has a candidate. -/
def Interval.shortest (i : Interval) (position : Int) : Nat → Nat → Nat × Int
  | 0, count => (roundDiv i.mid i.den, position - count)
  | fuel + 1, count =>
    match i.candidate? (position - count) with
    | some c => (c, position - count)
    | none => i.shortest position fuel (count + 1)

def zeros (n : Int) : List Char := List.replicate n.toNat '0'

def exponentText (e : Int) : List Char :=
  let digits := Nat.toDigits 10 e.natAbs
  (if e < 0 then '-' else '+') :: (if digits.length < 2 then '0' :: digits else digits)

/-- The point after the first `position` digits, with zeros where there are no digits. -/
def positional (digits : List Char) (position : Int) : List Char :=
  let n : Int := digits.length
  if position ≤ 0 then ['0', '.'] ++ zeros (-position) ++ digits
  else if n ≤ position then digits ++ zeros (position - n) ++ ['.', '0']
  else digits.take position.toNat ++ '.' :: digits.drop position.toNat

/-- The point after the first digit if others follow, and the exponent that moves it
to `position`. -/
def scientific (digits : List Char) (position : Int) : List Char :=
  match digits with
  | [d] => d :: 'e' :: exponentText (position - 1)
  | d :: rest => d :: '.' :: rest ++ 'e' :: exponentText (position - 1)
  | [] => []

def magnitudeText (f : Format) (m : Nat) (e : Int) : List Char :=
  if m = 0 then ['0', '.', '0']
  else
    let i := interval f m e
    let exact := decimalPosition i.mid i.den
    let (c, place) := i.shortest exact 20 1
    let digits := Nat.toDigits 10 c
    let significant := (digits.reverse.dropWhile (· == '0')).reverse
    let position := place + digits.length
    if -4 < exact ∧ exact ≤ f.wholeDigits then positional significant position
    else scientific significant position

def text (f : Format) : Binary → String
  | nan => "nan"
  | infinite negative => if negative then "-inf" else "inf"
  | finite negative m e =>
    String.ofList ((if negative then ['-'] else []) ++ magnitudeText f m e)

/-- A number in decimal digits, `digits * 10^place`. -/
def ofDecimal (f : Format) (negative : Bool) (digits : Nat) (place : Int) : Binary :=
  let (up, down) := decimalScale place
  f.round negative (digits * up) down

def digitsValue (cs : List Char) : Nat := cs.foldl (fun n c => 10 * n + (c.toNat - 48)) 0

def readExponent? (cs : List Char) : Option Int :=
  let (negative, ds) := match cs with
    | '-' :: ds => (true, ds)
    | '+' :: ds => (false, ds)
    | ds => (false, ds)
  if ds.isEmpty || !ds.all Char.isDigit then none
  else some (if negative then -(digitsValue ds : Int) else digitsValue ds)

def readMagnitude? (f : Format) (negative : Bool) (cs : List Char) : Option Binary := do
  let whole := cs.takeWhile Char.isDigit
  let rest := cs.dropWhile Char.isDigit
  let (fraction, rest) := match rest with
    | '.' :: rest => (rest.takeWhile Char.isDigit, rest.dropWhile Char.isDigit)
    | rest => ([], rest)
  let exponent ← match rest with
    | [] => some 0
    | c :: rest => if c = 'e' ∨ c = 'E' then readExponent? rest else none
  if whole.isEmpty && fraction.isEmpty then none
  else some (ofDecimal f negative (digitsValue (whole ++ fraction)) (exponent - fraction.length))

/-- Reads a sign, then digits with a point and an exponent, or a word for a number
without digits. -/
def ofText? (f : Format) (s : String) : Option Binary :=
  let (negative, cs) := match s.toList with
    | '-' :: cs => (true, cs)
    | '+' :: cs => (false, cs)
    | cs => (false, cs)
  match String.ofList (cs.map Char.toLower) with
  | "nan" => some .nan
  | "inf" | "infinity" => some (.infinite negative)
  | _ => readMagnitude? f negative cs

end WordTrace.Binary

import WordTrace.Remainder

/-!
# Division with remainder

Quotients and remainders of words, and right shifts as quotients by a power of two, are recorded as
`dividend = divisor * quotient + remainder` over two rows. Division by zero gives zero for both.
-/

namespace WordTrace.Division

/-- Coefficients of `divisor * quotient + remainder - dividend`. -/
def polynomial {α : Type} [Add α] [Sub α] [Neg α] [Mul α]
    (dividend divisor quotient remainder : List α) : List α :=
  LimbPoly.difference (LimbPoly.sum (LimbPoly.product divisor quotient) remainder) dividend

/-- The same for limb lists of which some may be empty. -/
def partialPolynomial (dividend divisor quotient remainder : List Int) :
    Except Fault LimbPoly.Partial := do
  let sum ← LimbPoly.Partial.sum (LimbPoly.Partial.product divisor quotient) (remainder.map some)
  LimbPoly.Partial.difference sum (dividend.map some)

/-- Which of quotient and remainder the output is. -/
def select? (quotient remainder : Int) : WordOp → Option Int
  | .div | .shr => some quotient
  | .mod => some remainder
  | _ => none

def writeCarries (dividend divisor quotient remainder : Int) : Recorder Unit := do
  let a ← Limb.splitWord dividend
  let b ← Limb.splitWord divisor
  let q ← Limb.splitWord quotient
  let r ← Limb.splitWord remainder
  Remainder.writeCarries (polynomial a b q r)

/-- For operands whose registers are filled already. -/
def fill (selector dividend divisor result : Int) : Recorder Unit :=
  let quotient := Remainder.quotient dividend divisor
  let remainder := Remainder.remainder dividend divisor
  match (WordOp.ofSelector? selector).bind (select? quotient remainder) with
  | none => throw (.unsupported .division selector)
  | some output =>
    if output = result then do
      Recorder.writeWord .current Layout.output output
      Recorder.writeWord .current Layout.quotient quotient
      Recorder.writeWord .current Layout.remainder remainder
      if divisor = 0 then pure () else writeCarries dividend divisor quotient remainder
      Remainder.record divisor remainder
    else throw (.wrongQuotient result output)

def record (selector a b result : Int) : Recorder Unit := do
  Recorder.writeWord .current Layout.operand0 a
  Recorder.writeWord .current Layout.operand1 b
  fill selector a b result

/-- The identities of one operator, for the registers it reads and the one its output repeats. -/
def identitiesOf (w : Window) (op : WordOp) (dividend divisor selected : Register) : List Felt :=
  let r := w.row
  let quotient := r.limbs Layout.quotient
  let remainder := r.limbs Layout.remainder
  let divisor := r.limbs divisor
  let p := polynomial (r.limbs dividend) divisor quotient remainder
  (Remainder.identities w.next divisor remainder quotient p ++
    LimbPoly.difference (r.limbs Layout.output) (r.limbs selected)).map (r.get op.selector * ·)

def identities (w : Window) : List Felt :=
  identitiesOf w .div Layout.operand0 Layout.operand1 Layout.quotient ++
    identitiesOf w .mod Layout.operand0 Layout.operand1 Layout.remainder ++
    identitiesOf w .shr Layout.operand1 Layout.operand2 Layout.quotient

end WordTrace.Division

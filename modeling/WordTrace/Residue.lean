import WordTrace.Remainder

/-!
# Residues

Sums, products and differences taken exactly and then reduced modulo a third word, recorded over two
rows as `modulus * quotient + remainder`. The quotient has four limbs and is negative for some
differences. Reduction modulo zero gives zero.
-/

namespace WordTrace

/-- The operator on limb polynomials. -/
def ResidueOp.polynomial {α : Type} [Add α] [Sub α] [Neg α] [Mul α] :
    ResidueOp → List α → List α → List α
  | add => LimbPoly.sum
  | mul => LimbPoly.product
  | sub => LimbPoly.difference

def ResidueOp.partialPolynomial (op : ResidueOp) (a b : List Int) :
    Except Fault LimbPoly.Partial :=
  match op with
  | add => LimbPoly.Partial.sum (a.map some) (b.map some)
  | mul => .ok (LimbPoly.Partial.product a b)
  | sub => LimbPoly.Partial.difference (a.map some) (b.map some)

namespace Residue

/-- Coefficients of `modulus * quotient + output` less the operator on `a` and `b`. -/
def polynomial {α : Type} [Add α] [Sub α] [Neg α] [Mul α]
    (op : ResidueOp) (a b modulus output quotient : List α) : List α :=
  LimbPoly.difference (LimbPoly.sum (LimbPoly.product modulus quotient) output) (op.polynomial a b)

/-- The same for the operator of a selector and limb lists of which some may be empty. -/
def partialPolynomial (selector : Int) (a b modulus output quotient : List Int) :
    Except Fault LimbPoly.Partial := do
  match ResidueOp.ofSelector? selector with
  | none => throw (.unknownSelector selector)
  | some op =>
    let sum ← LimbPoly.Partial.sum (LimbPoly.Partial.product modulus quotient) (output.map some)
    LimbPoly.Partial.difference sum (← op.partialPolynomial a b)

/-- Everything is split before anything is written. -/
def fill (op : ResidueOp) (a b m : Int) : Recorder Unit := do
  let quotient := Remainder.quotient (op.exact a b) m
  let remainder := Remainder.remainder (op.exact a b) m
  let x ← Limb.splitWord a
  let y ← Limb.splitWord b
  let modulus ← Limb.splitWord m
  let output ← Limb.splitWord remainder
  let q ← Limb.split quotient 4
  Recorder.write .current Layout.operand0 x
  Recorder.write .current Layout.operand1 y
  Recorder.write .current Layout.operand2 modulus
  Recorder.write .current Layout.output output
  Recorder.write .current Layout.wideQuotient q
  if m = 0 then pure () else Remainder.writeCarries (polynomial op x y modulus output q)
  Remainder.record m remainder

def record (selector a b m : Int) : Recorder Unit :=
  match ResidueOp.ofSelector? selector with
  | some op => fill op a b m
  | none => throw (.unsupported .residue selector)

def identitiesOf (w : Window) (op : ResidueOp) : List Felt :=
  let r := w.row
  let modulus := r.limbs Layout.operand2
  let output := r.limbs Layout.output
  let quotient := r.limbs Layout.wideQuotient
  let p := polynomial op (r.limbs Layout.operand0) (r.limbs Layout.operand1) modulus output quotient
  (Remainder.identities w.next modulus output quotient p).map (r.get op.selector * ·)

def identities (w : Window) : List Felt := ResidueOp.all.flatMap (identitiesOf w)

end Residue
end WordTrace

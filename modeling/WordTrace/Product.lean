import WordTrace.Carry
import WordTrace.Recorder

/-!
# Truncated products

The product of two words up to a multiple of `2^32`. The last carry takes up whatever lies above
32 bits. Left shifts are recorded as products too.
-/

namespace WordTrace.Product

/-- For factors whose registers are filled already. -/
def fill (left right : Int) : Recorder Unit := do
  let product := wrap (left * right)
  Recorder.writeWord .current Layout.output product
  let x ← Limb.splitWord left
  let y ← Limb.splitWord right
  let z ← Limb.splitWord product
  Recorder.write .current Layout.carry (← Carry.ofProduct x y z)

def record (a b : Int) : Recorder Unit := do
  Recorder.writeWord .current Layout.operand0 a
  Recorder.writeWord .current Layout.operand1 b
  fill a b

def identitiesOf (r : Row) (op : WordOp) (left right : Register) : List Felt :=
  let product := (LimbPoly.product (r.limbs left) (r.limbs right)).take 2
  let p := LimbPoly.difference (r.limbs Layout.output) product
  (Carry.residuals p (r.limbs Layout.carry)).map (r.get op.selector * ·)

def identities (w : Window) : List Felt :=
  identitiesOf w.row .mul Layout.operand0 Layout.operand1 ++
    identitiesOf w.row .shl Layout.operand1 Layout.operand2

end WordTrace.Product

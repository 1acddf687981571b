import WordTrace.Division
import WordTrace.Product

/-!
# Shifts

A shift multiplies or divides by a factor, the power of two that its amount names. From 32 on the
factor is zero, so that both the product and the quotient are.
-/

namespace WordTrace.Shift

inductive Direction
  | left
  | right
deriving DecidableEq

def factor (amount : Int) : Int := if amount ≥ 32 then 0 else 1 <<< amount.toNat

/-- Amounts must not be negative. -/
def factor? (amount : Int) : Except Fault Int :=
  if amount < 0 then .error .negativeShift else .ok (factor amount)

/-- A left shift compares the output it finds recorded with the result it is given. -/
def record (direction : Direction) (amount z result : Int) : Recorder Unit := do
  let d ← factor? amount
  Recorder.writeWord .current Layout.operand0 amount
  Recorder.writeWord .current Layout.operand1 z
  Recorder.writeWord .current Layout.operand2 d
  match direction with
  | .left =>
    Product.fill z d
    let output := (← Recorder.read Layout.output).map (fun x => (x.val : Int))
    let expected ← Limb.splitWord result
    if output = expected then pure () else throw (.wrongShift result output)
  | .right => Division.fill (WordOp.selector .shr).val z d result

end WordTrace.Shift

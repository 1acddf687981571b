import WordTrace.Chain
import WordTrace.Operation
import WordTrace.Residue
import WordTrace.Shift

/-!
# Traces

Every operation is recorded on fresh rows by the gadget of its operator, under the operator's
selector. A trace holds the rows of its operations one after another.
-/

namespace WordTrace

/-- The rows of one operation. -/
structure Rows where
  row : Row
  next : Option Row
deriving DecidableEq

def Rows.window (rows : Rows) : Window := ⟨rows.row, rows.next.getD .zero⟩

def Rows.toList (rows : Rows) : List Row := rows.row :: rows.next.toList

namespace WordOperation

def record (o : WordOperation) : Recorder Unit :=
  let a := o.first.val
  let b := o.second.val
  match o.op with
  | .add | .sub | .lt | .gt => Chain.record o.op.selector.val a b
  | .mul => Product.record a b
  | .div | .mod => Division.record o.op.selector.val a b o.result.val
  | .shl => Shift.record .left a b o.result.val
  | .shr => Shift.record .right a b o.result.val

end WordOperation

namespace Operation

/-- The call of the operator's gadget. -/
def record : Operation → Recorder Unit
  | word o => o.record
  | residue o => Residue.record o.op.selector.val o.first.val o.second.val o.modulus.val

/-- A row that is zero but for the operator's selector, before a zero row. -/
def start (op : Operator) : Window := ⟨Row.zero.set op.selector 1, .zero⟩

def rows (o : Operation) : Except Fault Rows :=
  match o.record.on (start o.operator) with
  | (.ok _, w) => .ok ⟨w.row, if o.operator.isTwoRow then some w.next else none⟩
  | (.error fault, _) => .error fault

/-- One line on an operation recorded. -/
def summary (o : Operation) (rows : Rows) : String :=
  o.operator.name ++ s!" -> {rows.toList.length} row(s), result={o.result.val}"

end Operation

/-- The rows of independent operations, in their order. -/
def recordAll (os : List Operation) : Except Fault (List Rows) := os.mapM Operation.rows

end WordTrace

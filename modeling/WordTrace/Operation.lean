import WordTrace.Value

/-!
# Operations

An operator applied to 32-bit words, with its result. Operations are built from values of any type:
the operator is checked first, then each operand in order and the result if one is given, each for
its type before its range, and at last whether the result is the operator's.
-/

namespace WordTrace

abbrev Word := { n : Int // 0 ≤ n ∧ n < wordLimit }

structure WordOperation where
  op : WordOp
  first : Word
  second : Word
  result : Word
  result_eq : result.val = op.result first.val second.val
deriving DecidableEq

structure ResidueOperation where
  op : ResidueOp
  first : Word
  second : Word
  modulus : Word
  result : Word
  result_eq : result.val = op.result first.val second.val modulus.val
deriving DecidableEq

inductive Operation
  | word (o : WordOperation)
  | residue (o : ResidueOperation)
deriving DecidableEq

/-- The places that words stand in. -/
inductive Slot
  | first
  | second
  | third
  | result
deriving DecidableEq

def Slot.name : Slot → String
  | first => "input0"
  | second => "input1"
  | third => "input2"
  | result => "result"

/-- The check that failed, with what it found. -/
inductive Refusal
  | wrongKind (expected : Kind) (found : Value)
  | notInteger (slot : Slot) (typeName : String)
  | outOfRange (slot : Slot) (n : Int)
  | wrongResult (op : Operator) (given expected : Int)
  | unknownName (name : String)
  | unknownValue (kind : Kind) (found : Value)
  | immutable (field : String)

namespace Refusal

/-- The class of a refusal that has a text. -/
def category : Refusal → Category
  | wrongKind _ _ => .type
  | notInteger _ _ => .value
  | outOfRange _ _ => .value
  | wrongResult _ _ _ => .value
  | unknownName _ => .key
  | unknownValue _ _ => .value
  | immutable _ => .immutable

def message (limits : Text.Limits) : Refusal → Except Text.Failure String
  | wrongKind k v => do return "expected a " ++ k.operatorName ++ ", got " ++ (← v.quote limits)
  | notInteger s t => .ok (s.name ++ " must be an integer, got " ++ t)
  | outOfRange s n => do return s.name ++ " out of 32-bit range: " ++ (← Text.integer limits n)
  | wrongResult op r e => do
    return op.name ++ " result " ++ (← Text.integer limits r) ++
      " does not match the operator result " ++ (← Text.integer limits e)
  | unknownName s => .ok s
  | unknownValue k v => do return (← v.quote limits) ++ " is not a valid " ++ k.operatorName
  | immutable f => .ok ("cannot assign to field " ++ Text.quoted f)

/-- The text is made before the refusal takes effect, so that a value without a text is not refused
in the class that its refusal is of. -/
def report (limits : Text.Limits) (e : Refusal) : Report := .ofText e.category (e.message limits)

end Refusal

def Value.word (slot : Slot) (v : Value) : Except Refusal Word :=
  match v.integer? with
  | none => .error (.notInteger slot v.typeName)
  | some n => if h : 0 ≤ n ∧ n < wordLimit then .ok ⟨n, h⟩ else .error (.outOfRange slot n)

/-- The check of an operator, whichever kind is asked for. -/
def Value.operatorOf (k : Kind) (v : Value) : Except Refusal k.Op :=
  match v.operator?.bind (Operator.ofKind? k) with
  | some op => .ok op
  | none => .error (.wrongKind k v)

namespace Operator

/-- Looks an operator up by its name. -/
def named (k : Kind) (s : String) : Except Refusal Operator :=
  match ofName? k s with
  | some op => .ok op
  | none => .error (.unknownName s)

/-- Looks an operator up by a value equal to its code. -/
def valued (k : Kind) (v : Value) : Except Refusal Operator :=
  match v.wholeNumber?.bind (ofCode? k) with
  | some op => .ok op
  | none => .error (.unknownValue k v)

end Operator

namespace Operation

/-- An operation with the result it claims. -/
def wordWithResult (operator first second result : Value) : Except Refusal Operation := do
  let op ← operator.operatorOf .word
  let a ← first.word .first
  let b ← second.word .second
  let r ← result.word .result
  if h : r.val = op.result a.val b.val then return .word ⟨op, a, b, r, h⟩
  else throw (.wrongResult (.word op) r.val (op.result a.val b.val))

def residueWithResult (operator first second modulus result : Value) :
    Except Refusal Operation := do
  let op ← operator.operatorOf .residue
  let a ← first.word .first
  let b ← second.word .second
  let m ← modulus.word .third
  let r ← result.word .result
  if h : r.val = op.result a.val b.val m.val then return .residue ⟨op, a, b, m, r, h⟩
  else throw (.wrongResult (.residue op) r.val (op.result a.val b.val m.val))

/-- An operation with the result computed, which passes the same checks as a claimed one. -/
def ofWords (operator first second : Value) : Except Refusal Operation := do
  let op ← operator.operatorOf .word
  let a ← first.word .first
  let b ← second.word .second
  wordWithResult operator (.int a.val) (.int b.val) (.int (op.result a.val b.val))

def ofResidue (operator first second modulus : Value) : Except Refusal Operation := do
  let op ← operator.operatorOf .residue
  let a ← first.word .first
  let b ← second.word .second
  let m ← modulus.word .third
  residueWithResult operator (.int a.val) (.int b.val) (.int m.val)
    (.int (op.result a.val b.val m.val))

def operator : Operation → Operator
  | word o => .word o.op
  | residue o => .residue o.op

def operands : Operation → List Word
  | word o => [o.first, o.second]
  | residue o => [o.first, o.second, o.modulus]

def result : Operation → Word
  | word o => o.result
  | residue o => o.result

/-- The operator, every operand and the result under their names. -/
def text (o : Operation) : String :=
  let slots := [Slot.first, .second, .third].zip o.operands ++ [(.result, o.result)]
  let fields := slots.map fun s => s.1.name ++ "=" ++ toString s.2.val
  o.operator.kind.operationName ++ "(" ++
    ", ".intercalate (("operator=" ++ o.operator.text) :: fields) ++ ")"

/-- Operations never change: assigning to a field is refused, whatever the field and the value. -/
def assign (_ : Operation) (field : String) (_ : Value) : Except Refusal Operation :=
  .error (.immutable field)

end Operation
end WordTrace

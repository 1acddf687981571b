import WordTrace.Fault

/-!
# Operators

Nine operators on two 32-bit words and three that combine two words exactly and reduce the outcome
modulo a third. Results are defined for all integers. Division by zero and reduction modulo zero
give zero, and shifting by 32 or more gives zero.
-/

namespace WordTrace

def wordLimit : Int := 4294967296

/-- The lowest 32 bits. -/
def wrap (z : Int) : Int := z % wordLimit

inductive WordOp
  | add
  | mul
  | sub
  | div
  | mod
  | lt
  | gt
  | shl
  | shr
deriving DecidableEq

namespace WordOp

def all : List WordOp := [add, mul, sub, div, mod, lt, gt, shl, shr]

def name : WordOp → String
  | add => "ADD"
  | mul => "MUL"
  | sub => "SUB"
  | div => "DIV"
  | mod => "MOD"
  | lt => "LT"
  | gt => "GT"
  | shl => "SHL"
  | shr => "SHR"

def code : WordOp → Nat
  | add => 0
  | mul => 1
  | sub => 2
  | div => 3
  | mod => 4
  | lt => 5
  | gt => 6
  | shl => 7
  | shr => 8

/-- The first operand of a shift is its amount, the second the number shifted. -/
def result : WordOp → Int → Int → Int
  | add, x, y => wrap (x + y)
  | mul, x, y => wrap (x * y)
  | sub, x, y => wrap (x - y)
  | div, x, y => if y = 0 then 0 else x.fdiv y
  | mod, x, y => if y = 0 then 0 else x.fmod y
  | lt, x, y => if x < y then 1 else 0
  | gt, x, y => if x > y then 1 else 0
  | shl, s, x => if s ≥ 32 then 0 else wrap (x <<< s.toNat)
  | shr, s, x => if s ≥ 32 then 0 else x >>> s.toNat

def isShift : WordOp → Bool
  | shl | shr => true
  | _ => false

/-- Amounts of a shift must not be negative. -/
def result? (op : WordOp) (x y : Int) : Except Fault Int :=
  if op.isShift && x < 0 then .error .negativeShift else .ok (op.result x y)

end WordOp

inductive ResidueOp
  | add
  | mul
  | sub
deriving DecidableEq

namespace ResidueOp

def all : List ResidueOp := [add, mul, sub]

def name : ResidueOp → String
  | add => "ADDMOD"
  | mul => "MULMOD"
  | sub => "SUBMOD"

def code : ResidueOp → Nat
  | add => 0
  | mul => 1
  | sub => 2

def exact : ResidueOp → Int → Int → Int
  | add, x, y => x + y
  | mul, x, y => x * y
  | sub, x, y => x - y

/-- Reduced to the sign of the modulus, without wrapping at 32 bits before. -/
def result (op : ResidueOp) (x y m : Int) : Int :=
  if m = 0 then 0 else (op.exact x y).fmod m

end ResidueOp

inductive Operator
  | word (op : WordOp)
  | residue (op : ResidueOp)
deriving DecidableEq

/-- The two families of operators, named as in texts. -/
inductive Kind
  | word
  | residue
deriving DecidableEq

def Kind.operatorName : Kind → String
  | word => "BinaryOperator"
  | residue => "TernaryOperator"

def Kind.operationName : Kind → String
  | word => "BinaryOperation"
  | residue => "TernaryOperation"

/-- The operators of a kind. -/
abbrev Kind.Op : Kind → Type
  | word => WordOp
  | residue => ResidueOp

def Kind.operator : (k : Kind) → k.Op → Operator
  | word, op => .word op
  | residue, op => .residue op

namespace Operator

def ofKind? : (k : Kind) → Operator → Option k.Op
  | .word, word op => some op
  | .residue, residue op => some op
  | _, _ => none

def ofKind : Kind → List Operator
  | .word => WordOp.all.map word
  | .residue => ResidueOp.all.map residue

def kind : Operator → Kind
  | word _ => .word
  | residue _ => .residue

def name : Operator → String
  | word op => op.name
  | residue op => op.name

def code : Operator → Nat
  | word op => op.code
  | residue op => op.code

def ofName? (k : Kind) (s : String) : Option Operator := (ofKind k).find? (·.name == s)

def ofCode? (k : Kind) (n : Int) : Option Operator :=
  (ofKind k).find? fun op => (op.code : Int) == n

/-- The operators whose record goes on in a second row. -/
def isTwoRow : Operator → Bool
  | word .div | word .mod | word .shr | residue _ => true
  | _ => false

def text (op : Operator) : String :=
  "<" ++ op.kind.operatorName ++ "." ++ op.name ++ ": " ++ toString op.code ++ ">"

end Operator
end WordTrace

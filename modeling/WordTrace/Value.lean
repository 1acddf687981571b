import WordTrace.Binary.Text
import WordTrace.Operator
import WordTrace.Text.Quoted

/-!
# Values

What may be offered as an operand, a result or an operator before anything is known about its type.
Integers come in an unbounded type and in types of a fixed width. There is no end of other types,
and of a value of such a type nothing counts but a few answers it gives about itself. Messages quote
values, which fails for integers that are too long and lists that are too deep.
-/

namespace WordTrace

structure SizedInt where
  signed : Bool
  bits : Nat
deriving DecidableEq

inductive SizedFloat
  | single
  | double
deriving DecidableEq

/-- A value of a type that is not known here, by the name of its type, the text that quotes it or
the failure to make one, the integer it is if its type is one of integers, and the integer that it
equals if there is any. -/
structure ForeignValue where
  typeName : String
  text : Except Text.Failure String
  integer? : Option Int
  wholeNumber? : Option Int

inductive Value
  | int (n : Int)
  | truth (b : Bool)
  | text (s : String)
  | absent
  | list (items : List Value)
  | emptyMap
  | float (x : Binary)
  | sizedInt (type : SizedInt) (n : Int)
  | sizedFloat (type : SizedFloat) (x : Binary)
  | sizedTruth (b : Bool)
  | operator (op : Operator)
  | foreign (x : ForeignValue)

def SizedInt.name (t : SizedInt) : String :=
  (if t.signed then "int" else "uint") ++ toString t.bits

namespace SizedFloat

def name : SizedFloat → String
  | single => "float32"
  | double => "float64"

def format : SizedFloat → Binary.Format
  | single => Binary.single
  | double => Binary.double

end SizedFloat

namespace Value

def typeName : Value → String
  | int _ => "int"
  | truth _ => "bool"
  | text _ => "str"
  | absent => "NoneType"
  | list _ => "list"
  | emptyMap => "dict"
  | float _ => "float"
  | sizedInt t _ => t.name
  | sizedFloat t _ => t.name
  | sizedTruth _ => "bool"
  | operator op => op.kind.operatorName
  | foreign x => x.typeName

def truthText (b : Bool) : String := if b then "True" else "False"

mutual

/-- The text by which messages quote a value, with room for so many values inside one another. -/
def quoteWithin (limits : Text.Limits) : Nat → Value → Except Text.Failure String
  | 0, _ => .error .tooDeep
  | _ + 1, int n => Text.integer limits n
  | _ + 1, truth b => .ok (truthText b)
  | _ + 1, text s => .ok (Text.quoted s)
  | _ + 1, absent => .ok "None"
  | room + 1, list items => do
    return "[" ++ ", ".intercalate (← quoteAllWithin limits room items) ++ "]"
  | _ + 1, emptyMap => .ok "\x7b\x7d"
  | _ + 1, float x => .ok (x.text Binary.double)
  | _ + 1, sizedInt t n => do return "np." ++ t.name ++ "(" ++ (← Text.integer limits n) ++ ")"
  | _ + 1, sizedFloat t x => .ok ("np." ++ t.name ++ "(" ++ x.text t.format ++ ")")
  | _ + 1, sizedTruth b => .ok ("np." ++ truthText b ++ "_")
  | _ + 1, operator op => .ok op.text
  | _ + 1, foreign x => x.text

def quoteAllWithin (limits : Text.Limits) : Nat → List Value → Except Text.Failure (List String)
  | _, [] => .ok []
  | room, v :: vs => do
    let s ← quoteWithin limits room v
    return s :: (← quoteAllWithin limits room vs)

end

def quote (limits : Text.Limits) (v : Value) : Except Text.Failure String :=
  v.quoteWithin limits limits.depth

def operator? : Value → Option Operator
  | operator op => some op
  | _ => none

/-- The integer of a value of an integer type. Truth values have none. -/
def integer? : Value → Option Int
  | int n => some n
  | sizedInt _ n => some n
  | foreign x => x.integer?
  | _ => none

/-- The integer that a number of any type equals; truth values equal zero and one. -/
def wholeNumber? : Value → Option Int
  | int n => some n
  | sizedInt _ n => some n
  | truth b => some (if b then 1 else 0)
  | sizedTruth b => some (if b then 1 else 0)
  | float x => x.toInt?
  | sizedFloat _ x => x.toInt?
  | foreign x => x.wholeNumber?
  | _ => none

end Value
end WordTrace

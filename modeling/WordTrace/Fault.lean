import WordTrace.Felt
import WordTrace.Report

/-!
# Faults

The ways in which splitting, carrying, recording and reading can fail, each with the numbers it is
about, and how each is reported.
-/

namespace WordTrace

inductive Gadget
  | chain
  | product
  | division
  | shift
  | residue
deriving DecidableEq

def Gadget.name : Gadget → String
  | chain => "addcy"
  | product => "mul"
  | division => "divmod"
  | shift => "shift"
  | residue => "modular"

/-- A coefficient that no pair of terms reached takes part in arithmetic. -/
inductive UnsetUse
  | sum (left right : Bool)
  | difference (left right : Bool)
  | negation
deriving DecidableEq

inductive Fault
  | negativeShift
  | tooWide (value limbs : Int)
  | noCoefficients
  | notRoot (p : List Int)
  | brokenSum (x y z : List Int)
  | brokenProduct (left right output : List Int)
  | unset (use : UnsetUse)
  | unknownSelector (selector : Int)
  | overfull (limbs columns : Nat)
  | unsupported (gadget : Gadget) (selector : Int)
  | wrongQuotient (result encoded : Int)
  | wrongShift (result : Int) (encoded : List Int)
  | notScalar (value : Int)
deriving DecidableEq

namespace UnsetUse

def side : Bool → String
  | true => "'NoneType'"
  | false => "'int'"

def message : UnsetUse → String
  | sum l r => "unsupported operand type(s) for +: " ++ side l ++ " and " ++ side r
  | difference l r => "unsupported operand type(s) for -: " ++ side l ++ " and " ++ side r
  | negation => "bad operand type for unary -: 'NoneType'"

end UnsetUse

namespace Fault

def category : Fault → Category
  | noCoefficients => .index
  | unset _ => .type
  | unknownSelector _ => .key
  | _ => .value

/-- A selector that is not known is reported as it is, and no text is made of it. -/
def message (limits : Text.Limits) : Fault → Except Text.Failure String
  | negativeShift => .ok "negative shift count"
  | tooWide v n => do
    return (← Text.integer limits v) ++ " does not fit in " ++ (← Text.integer limits n) ++
      " limbs of 16 bits"
  | noCoefficients => .ok "list index out of range"
  | notRoot p => do return "2^16 is not a root of " ++ (← Text.integers limits p)
  | brokenSum x y z => do
    return "addcy: limb identity does not hold for " ++ (← Text.integers limits x) ++ " + " ++
      (← Text.integers limits y) ++ " = " ++ (← Text.integers limits z)
  | brokenProduct l r o => do
    return "mul: " ++ (← Text.integers limits l) ++ " * " ++ (← Text.integers limits r) ++
      " does not truncate to " ++ (← Text.integers limits o)
  | unset use => .ok use.message
  | unknownSelector s => .ok (toString s)
  | overfull limbs columns => .ok s!"{limbs} limbs do not fit in {columns} columns"
  | unsupported g s => do return g.name ++ ": unsupported filter " ++ (← Text.integer limits s)
  | wrongQuotient r e => do
    return "divmod: result " ++ (← Text.integer limits r) ++ " does not match encoded output " ++
      (← Text.integer limits e)
  | wrongShift r e => do
    return "shift: result " ++ (← Text.integer limits r) ++ " does not match encoded output " ++
      (← Text.integers limits e)
  | notScalar v => do
    return s!"GF({prime}) scalars must be in `0 <= x < {prime}`, not " ++
      (← Text.integer limits v) ++ "."

def report (limits : Text.Limits) (f : Fault) : Report := .ofText f.category (f.message limits)

end Fault
end WordTrace

import WordTrace.Fault
import WordTrace.LimbPoly

/-!
# Unset coefficients

With one empty factor no pair of terms reaches any coefficient of a product. Such coefficients stay
unset: they can be moved along, but adding, subtracting or negating one is a fault.
-/

namespace WordTrace.LimbPoly

abbrev Partial := List (Option Int)

namespace Partial

/-- Either every coefficient is set or none is. -/
def product {α : Type} [Add α] [Mul α] (a b : List α) : List (Option α) :=
  if a.isEmpty || b.isEmpty then List.replicate (a.length + b.length - 1) none
  else (LimbPoly.product a b).map some

def add : Option Int → Option Int → Except Fault (Option Int)
  | some x, some y => .ok (some (x + y))
  | x, y => .error (.unset (.sum x.isNone y.isNone))

def sub : Option Int → Option Int → Except Fault (Option Int)
  | some x, some y => .ok (some (x - y))
  | x, y => .error (.unset (.difference x.isNone y.isNone))

def neg : Option Int → Except Fault (Option Int)
  | some x => .ok (some (-x))
  | none => .error (.unset .negation)

/-- Faults are met from the lowest coefficient up. -/
def sum : Partial → Partial → Except Fault Partial
  | x :: a, y :: b => do
    let s ← add x y
    let rest ← sum a b
    return s :: rest
  | [], b => .ok b
  | a, [] => .ok a

def difference : Partial → Partial → Except Fault Partial
  | x :: a, y :: b => do
    let s ← sub x y
    let rest ← difference a b
    return s :: rest
  | [], b => b.mapM neg
  | a, [] => .ok a

end Partial
end WordTrace.LimbPoly

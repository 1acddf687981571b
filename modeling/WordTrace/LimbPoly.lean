/-!
# Limb polynomials

Coefficient lists, constant term first. The coefficients are integers when rows are recorded and
field elements when rows are checked, so everything here asks for the arithmetic it uses and no
more.
-/

namespace WordTrace.LimbPoly

variable {α : Type} [Add α] [Sub α] [Neg α] [Mul α]

def sum : List α → List α → List α
  | x :: a, y :: b => (x + y) :: sum a b
  | [], b => b
  | a, [] => a

def difference : List α → List α → List α
  | x :: a, y :: b => (x - y) :: difference a b
  | [], b => b.map (- ·)
  | a, [] => a

/-- For nonempty factors one coefficient fewer than both have together. -/
def product : List α → List α → List α
  | x :: a, y :: b => (x * y) :: sum (b.map (x * ·)) (product a (y :: b))
  | _, _ => []

end WordTrace.LimbPoly

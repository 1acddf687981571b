import WordTrace.Limb
import WordTrace.LimbPoly.Unset

/-!
# Carries

A limb identity holds when carries from limb to limb settle every coefficient. `settle` computes
them over the integers, and sums, truncated products and the root `2^16` of a polynomial are three
uses of it. `residuals` is what carries leave unsettled over the field.
-/

namespace WordTrace.Carry

/-- Each limb together with the carry from below must be a multiple of the base, and the multiple is
the next carry. -/
def settle (carry : Int) : List Int → Option (List Int)
  | [] => some []
  | x :: xs =>
    if (carry + x) % Limb.base = 0 then
      (settle ((carry + x) / Limb.base) xs).map ((carry + x) / Limb.base :: ·)
    else none

@[simp] theorem settle_nil (carry : Int) : settle carry [] = some [] := rfl

/-- Carries of `x + y = z`, as far as all three lists reach. -/
def ofSum (x y z : List Int) : Except Fault (List Int) :=
  match settle 0 (List.zipWith (· - ·) (List.zipWith (· + ·) x y) z) with
  | some carries => .ok carries
  | none => .error (.brokenSum x y z)

/-- Carries of `left * right = output` in the two lowest limbs. -/
def ofProduct (left right output : List Int) : Except Fault (List Int) :=
  match LimbPoly.Partial.product left right, output with
  | none :: _, _ :: _ => .error (.unset (.sum true false))
  | _, _ =>
    match settle 0 (List.zipWith (· - ·) ((LimbPoly.product left right).take 2) output) with
    | some carries => .ok carries
    | none => .error (.brokenProduct left right output)

/-- The quotient of a polynomial by `X - 2^16`. The last carry must be the leading coefficient. -/
def ofRoot (p : List Int) : Except Fault (List Int) :=
  match p.getLast? with
  | none => .error .noCoefficients
  | some leading =>
    match settle 0 (p.dropLast.map (- ·)) with
    | some carries => if carries.getLastD 0 = leading then .ok carries else .error (.notRoot p)
    | none => .error (.notRoot p)

/-- Coefficients of `p - (X - 2^16) * carries`, where `below` is the carry into the first one. -/
def residualsFrom (below : Felt) : List Felt → List Felt → List Felt
  | [], _ => []
  | x :: p, [] => (x - below) :: residualsFrom 0 p []
  | x :: p, c :: carries => (x - below + Limb.baseFelt * c) :: residualsFrom c p carries

/-- Carries that are missing count as zero, those beyond the polynomial are ignored. -/
def residuals (p carries : List Felt) : List Felt := residualsFrom 0 p carries

@[simp] theorem length_residualsFrom (below : Felt) (p carries : List Felt) :
    (residualsFrom below p carries).length = p.length := by
  induction p generalizing below carries with
  | nil => cases carries <;> rfl
  | cons x p ih => cases carries <;> simp [residualsFrom, ih]

@[simp] theorem length_residuals (p carries : List Felt) :
    (residuals p carries).length = p.length := length_residualsFrom 0 p carries

end WordTrace.Carry

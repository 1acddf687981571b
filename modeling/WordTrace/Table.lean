import WordTrace.Chain
import WordTrace.Residue
import WordTrace.Shift

/-!
# The table of identities

A window is accepted when the identities of every family vanish on it. Any list of identities can be
batched into one value by a challenge.
-/

namespace WordTrace

namespace Selector

/-- Selectors are zero or one, and so is their sum: at most one is set. -/
def identities (w : Window) : List Felt :=
  let selectors := w.row.limbs Layout.selectors
  selectors.map Felt.booleanity ++ [Felt.booleanity (selectors.foldl (· + ·) 0)]

end Selector

namespace Table

def identities (w : Window) : List Felt :=
  Selector.identities w ++ Chain.identities w ++ Product.identities w ++
    Division.identities w ++ Residue.identities w

def accepts (w : Window) : Bool := (identities w).all (· == 0)

end Table

/-- A list of identities that can be asked for by its name. -/
inductive Family
  | selectors
  | chain
  | product
  | division
  | residue
  | table
deriving DecidableEq

namespace Family

def all : List Family := [selectors, chain, product, division, residue, table]

def name : Family → String
  | selectors => "selectors"
  | chain => "addcy"
  | product => "mul"
  | division => "divmod"
  | residue => "modular"
  | table => "arithmetic"

def title : Family → String
  | selectors => "SelectorConstraints"
  | chain => "AddcyConstraints"
  | product => "MulConstraints"
  | division => "DivmodConstraints"
  | residue => "ModularConstraints"
  | table => "ArithmeticConstraints"

def ofName? (s : String) : Option Family := all.find? (·.name == s)

def unknownName (s : String) : String :=
  s!"No constraint module '{s}'. Available: [" ++
    ", ".intercalate (all.map fun f => "'" ++ f.name ++ "'") ++ "]"

def identities : Family → Window → List Felt
  | selectors => Selector.identities
  | chain => Chain.identities
  | product => Product.identities
  | division => Division.identities
  | residue => Residue.identities
  | table => Table.identities

end Family

/-- What was gathered so far and the values left, the last of which is only added. -/
def gather (challenge acc v : Felt) : List Felt → Felt
  | [] => acc + v
  | u :: us => gather challenge ((acc + v) * challenge) u us

/-- The values as coefficients of a polynomial in the challenge, the last one constant. A single
value is the batch itself. -/
def batch (challenge : Felt) : List Felt → Except Fault Felt
  | [] => .error .noCoefficients
  | [v] => .ok v
  | v :: u :: us => .ok (gather challenge (v * challenge) u us)

end WordTrace

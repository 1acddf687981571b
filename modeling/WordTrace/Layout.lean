import WordTrace.Operator

/-!
# Layout of a row

Thirty columns: a selector per operator, the registers of the operands and of the output, two
auxiliary registers of four limbs, the flag of a zero modulus and the inverse of a modulus. Gadgets
share the auxiliary registers under names of their own.
-/

namespace WordTrace

abbrev Layout.width : Nat := 30

abbrev Column := Fin Layout.width

/-- Columns of the limbs of one number, least significant first. -/
abbrev Register := List Column

def WordOp.selector : WordOp → Column
  | add => 0
  | mul => 1
  | sub => 2
  | div => 3
  | mod => 4
  | lt => 5
  | gt => 6
  | shl => 7
  | shr => 8

def ResidueOp.selector : ResidueOp → Column
  | add => 9
  | mul => 10
  | sub => 11

def Operator.selector : Operator → Column
  | word op => op.selector
  | residue op => op.selector

def WordOp.ofSelector? (s : Int) : Option WordOp :=
  all.find? (fun op => (op.selector.val : Int) == s)

def ResidueOp.ofSelector? (s : Int) : Option ResidueOp :=
  all.find? (fun op => (op.selector.val : Int) == s)

namespace Layout

def selectors : Register := [0, 1, 2, 3, 4, 5, 6, 7, 8, 9, 10, 11]

def operand0 : Register := [12, 13]
def operand1 : Register := [14, 15]
def operand2 : Register := [16, 17]

def outputLow : Column := 18
def outputHigh : Column := 19
def output : Register := [outputLow, outputHigh]

def auxiliary0 : Register := [20, 21, 22, 23]
def auxiliary1 : Register := [24, 25, 26, 27]

/-- The last carry of a chain or a product. -/
def topCarry : Column := 21
def carry : Register := [20, topCarry]
def wrapped : Register := [24, 25]

def quotient : Register := [20, 21]
def remainder : Register := [24, 25]
def wideQuotient : Register := auxiliary0

/-- In the second row of a division. -/
def productCarry : Register := auxiliary0
/-- In the second row of a division: what the remainder lacks to the modulus less one. -/
def gap : Register := [24, 25]

def modulusIsZero : Column := 28
def modulusInverse : Column := 29

end Layout
end WordTrace

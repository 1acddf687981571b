import WordTrace.Layout
import WordTrace.Limb

/-!
# Rows and windows

A row holds a field element in every column. Identities read a window: a row together with the row
after it. Rows and windows are changed one cell at a time, and what was not assigned is kept.
-/

namespace WordTrace

structure Row where
  cells : Vector Felt Layout.width
deriving DecidableEq

namespace Row

def zero : Row := ⟨Vector.replicate Layout.width 0⟩

def get (r : Row) (c : Column) : Felt := r.cells[c]

def set (r : Row) (c : Column) (x : Felt) : Row := ⟨r.cells.set c x⟩

@[simp] theorem get_zero (c : Column) : zero.get c = 0 := by simp [zero, get]

@[simp] theorem get_set_self (r : Row) (c : Column) (x : Felt) : (r.set c x).get c = x := by
  simp [set, get]

theorem get_set_of_ne (r : Row) {c d : Column} (x : Felt) (h : d ≠ c) :
    (r.set c x).get d = r.get d := by
  have : c.val ≠ d.val := fun e => h (Fin.ext e.symm)
  simp [set, get, this]

theorem ext {r s : Row} (h : ∀ c, r.get c = s.get c) : r = s := by
  cases r; cases s
  congr
  exact Vector.ext fun i hi => h ⟨i, hi⟩

def limbs (r : Row) (register : Register) : List Felt := register.map r.get

/-- Later columns win where a register repeats one. -/
def write : Row → Register → List Felt → Row
  | r, c :: register, x :: xs => write (r.set c x) register xs
  | r, _, _ => r

def toList (r : Row) : List Felt := r.cells.toList

/-- The first elements of a list, zero where the list is shorter. -/
def ofList (xs : List Felt) : Row := ⟨Vector.ofFn fun c : Column => xs.getD c 0⟩

end Row

inductive Side
  | current
  | next
deriving DecidableEq

structure Window where
  row : Row
  next : Row
deriving DecidableEq

namespace Window

def zero : Window := ⟨.zero, .zero⟩

/-- A last row, or one whose follower is not looked at. -/
def alone (r : Row) : Window := ⟨r, .zero⟩

def get (w : Window) : Side → Row
  | .current => w.row
  | .next => w.next

def modify (w : Window) : Side → (Row → Row) → Window
  | .current, f => { w with row := f w.row }
  | .next, f => { w with next := f w.next }

def swap (w : Window) : Window := ⟨w.next, w.row⟩

end Window

/-- What a register holds, read in four ways. -/
structure Reading where
  cells : List Felt
  signed : List Int
  value : Felt
  signedValue : Int
deriving DecidableEq

def Row.read (r : Row) (register : Register) : Reading :=
  let cells := r.limbs register
  let signed := cells.map Felt.signed
  ⟨cells, signed, Limb.valueFelt cells, Limb.value signed⟩

end WordTrace

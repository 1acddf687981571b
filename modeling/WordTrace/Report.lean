/-!
# Reports

A failure is reported in a class and with a text. The text has limits of its own: integers are
written up to a number of digits, and values are quoted inside one another up to a depth. What goes
beyond has no text, and then that is reported in place of the failure that the text was for.
-/

namespace WordTrace

/-- The classes in which failures are reported. -/
inductive Category
  | type
  | value
  | key
  | index
  | recursion
  | immutable
  | other (name : String)
deriving DecidableEq

structure Report where
  category : Category
  message : String
deriving DecidableEq

namespace Text

/-- The digits an integer may have, if they are limited at all, and the room left for values quoted
inside one another. Both are matters of the run and of no value. -/
structure Limits where
  digits : Option Nat
  depth : Nat

/-- As a run starts with. What of the room is left later depends on who asks for the text. -/
def Limits.standard : Limits := ⟨some 4300, 1000⟩

/-- Why there is no text. A value of a type that is not known here may report what it likes. -/
inductive Failure
  | tooLong (digits : Nat)
  | tooDeep
  | own (report : Report)
deriving DecidableEq

def Failure.report : Failure → Report
  | tooLong digits =>
    ⟨.value, s!"Exceeds the limit ({digits} digits) for integer string conversion; " ++
      "use sys.set_int_max_str_digits() to increase the limit"⟩
  | tooDeep => ⟨.recursion, "maximum recursion depth exceeded while getting the repr of an object"⟩
  | own report => report

/-- The sign counts for no digit. -/
def integer (limits : Limits) (n : Int) : Except Failure String :=
  match limits.digits with
  | none => .ok (toString n)
  | some digits =>
    if n.natAbs < Nat.pow 10 digits then .ok (toString n) else .error (.tooLong digits)

/-- An integer list in brackets, entries separated by a comma and a blank. No list stands inside it,
so that room is no matter here. -/
def integers (limits : Limits) (ns : List Int) : Except Failure String := do
  return "[" ++ ", ".intercalate (← ns.mapM (integer limits)) ++ "]"

end Text

/-- The report of a failure of a class, or that there is no text for it. -/
def Report.ofText (category : Category) : Except Text.Failure String → Report
  | .ok message => ⟨category, message⟩
  | .error failure => failure.report

end WordTrace

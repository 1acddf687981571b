import Mathlib.Algebra.Order.Ring.Int
import WordTrace.Operation

/-! # The class of a report

An integer that has no text is reported as a matter of values. What is itself a matter of values
stays one if its text holds integers only, and every fault is reported in its own class. Values that
are quoted are another matter, for a list or a value of an unknown type may fail as it likes.
-/

namespace WordTrace

namespace Text
variable {α β : Type} {limits : Limits}

/-- The text is made, or else the failure is one of values. -/
def FailsAsValue (t : Except Failure α) : Prop := ∀ f, t = .error f → f.report.category = .value

theorem failsAsValue_ok (a : α) : FailsAsValue (.ok a) := nofun

theorem FailsAsValue.bind {t : Except Failure α} {f : α → Except Failure β} (ht : FailsAsValue t)
    (hf : ∀ a, FailsAsValue (f a)) : FailsAsValue (t >>= f) := by
  cases t with
  | error e =>
    intro e' h
    cases h
    exact ht e rfl
  | ok a => exact hf a

theorem failsAsValue_integer (n : Int) : FailsAsValue (integer limits n) := by
  intro f h
  unfold integer at h
  split at h
  · cases h
  · split at h <;> cases h
    rfl

theorem failsAsValue_mapM {f : α → Except Failure β} (hf : ∀ a, FailsAsValue (f a)) (as : List α) :
    FailsAsValue (as.mapM f) := by
  induction as with
  | nil => exact failsAsValue_ok []
  | cons a as ih =>
    rw [List.mapM_cons]
    exact (hf a).bind fun b => ih.bind fun bs => failsAsValue_ok (b :: bs)

theorem failsAsValue_integers (ns : List Int) : FailsAsValue (integers limits ns) :=
  (failsAsValue_mapM failsAsValue_integer ns).bind fun _ => failsAsValue_ok _

end Text

open Text (failsAsValue_ok failsAsValue_integer failsAsValue_integers)

theorem Report.category_ofText {t : Except Text.Failure String} (h : Text.FailsAsValue t) :
    (Report.ofText .value t).category = .value := by
  cases t with
  | error f => exact h f rfl
  | ok s => rfl

/-- However long the numbers of a fault are, it is reported in its class. -/
theorem Fault.category_report (limits : Text.Limits) (f : Fault) :
    (f.report limits).category = f.category := by
  cases f with
  | negativeShift | noCoefficients | unset | unknownSelector | overfull => rfl
  | tooWide v n =>
    exact Report.category_ofText <| (failsAsValue_integer v).bind fun _ =>
      (failsAsValue_integer n).bind fun _ => failsAsValue_ok _
  | notRoot p =>
    exact Report.category_ofText <| (failsAsValue_integers p).bind fun _ => failsAsValue_ok _
  | brokenSum x y z | brokenProduct x y z =>
    exact Report.category_ofText <| (failsAsValue_integers x).bind fun _ =>
      (failsAsValue_integers y).bind fun _ => (failsAsValue_integers z).bind fun _ =>
        failsAsValue_ok _
  | unsupported _ n | notScalar n =>
    exact Report.category_ofText <| (failsAsValue_integer n).bind fun _ => failsAsValue_ok _
  | wrongQuotient r e =>
    exact Report.category_ofText <| (failsAsValue_integer r).bind fun _ =>
      (failsAsValue_integer e).bind fun _ => failsAsValue_ok _
  | wrongShift r e =>
    exact Report.category_ofText <| (failsAsValue_integer r).bind fun _ =>
      (failsAsValue_integers e).bind fun _ => failsAsValue_ok _

namespace Refusal
variable (limits : Text.Limits)

theorem category_report_outOfRange (slot : Slot) (n : Int) :
    ((outOfRange slot n).report limits).category = .value :=
  Report.category_ofText <| (failsAsValue_integer n).bind fun _ => failsAsValue_ok _

theorem category_report_wrongResult (op : Operator) (given expected : Int) :
    ((wrongResult op given expected).report limits).category = .value :=
  Report.category_ofText <| (failsAsValue_integer given).bind fun _ =>
    (failsAsValue_integer expected).bind fun _ => failsAsValue_ok _

variable {limits}

/-- What is no operator is quoted, and unless that fails its type is what is reported. -/
theorem report_wrongKind_of_ok {k : Kind} {v : Value} {s : String} (h : v.quote limits = .ok s) :
    (wrongKind k v).report limits = ⟨.type, "expected a " ++ k.operatorName ++ ", got " ++ s⟩ := by
  rw [report, message, h]
  rfl

theorem report_wrongKind_of_error {k : Kind} {v : Value} {f : Text.Failure}
    (h : v.quote limits = .error f) : (wrongKind k v).report limits = f.report := by
  rw [report, message, h]
  rfl

end Refusal
end WordTrace

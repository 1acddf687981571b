import WordTrace.Proofs.Encoding
import WordTrace.Proofs.Report

/-! # Which operations can be built

Operator, operands and result are offered as values of any type, and an operation comes of them only
if they describe one. A result that is claimed makes one more value to be checked, and nothing else:
the operation is the one that is built without it. What is refused is refused for the first check
that fails. The check of the operator quotes what it refuses, and reports something else where there
is no text for it.
-/

namespace WordTrace

/-- One of the checks fails, and those before it do not. -/
inductive FirstFailure : List (Refusal → Prop) → Refusal → Prop
  | here {check : Refusal → Prop} {checks : List (Refusal → Prop)} {e : Refusal} (h : check e) :
    FirstFailure (check :: checks) e
  | there {check : Refusal → Prop} {checks : List (Refusal → Prop)} {e : Refusal}
    (hpasses : ∀ e', ¬check e') (h : FirstFailure checks e) : FirstFailure (check :: checks) e

namespace FirstFailure
variable {α β : Type} {check : Refusal → Prop} {checks : List (Refusal → Prop)} {e : Refusal}

theorem not_nil : ¬FirstFailure [] e := nofun

theorem single_iff : FirstFailure [check] e ↔ check e := by
  constructor
  · rintro (h | ⟨-, h⟩)
    · exact h
    · exact absurd h not_nil
  · exact .here

theorem cons_iff : FirstFailure (check :: checks) e ↔
    check e ∨ (∀ e', ¬check e') ∧ FirstFailure checks e := by
  constructor
  · rintro (h | ⟨hpasses, h⟩)
    · exact .inl h
    · exact .inr ⟨hpasses, h⟩
  · rintro (h | ⟨hpasses, h⟩)
    · exact .here h
    · exact .there hpasses h

theorem exists_mem (h : FirstFailure checks e) : ∃ check ∈ checks, check e := by
  induction h with
  | here h => exact ⟨_, List.mem_cons_self, h⟩
  | there _ _ ih =>
    obtain ⟨check, hmem, h⟩ := ih
    exact ⟨check, List.mem_cons_of_mem _ hmem, h⟩

/-- The program goes from check to check. -/
theorem bind_eq_error_iff {x : Except Refusal α} {f : α → Except Refusal β}
    (hcheck : ∀ e, x = .error e ↔ check e)
    (hrest : ∀ a, x = .ok a → (f a = .error e ↔ FirstFailure checks e)) :
    x >>= f = .error e ↔ FirstFailure (check :: checks) e := by
  rw [cons_iff, ← hcheck e]
  cases x with
  | error e' =>
    have hfails : check e' := (hcheck e').mp rfl
    constructor
    · intro h
      cases h
      exact .inl rfl
    · intro h
      cases h.resolve_right fun hr => hr.1 e' hfails
      rfl
  | ok a =>
    have hpasses : ∀ e', ¬check e' := fun e' h => nomatch (hcheck e').mpr h
    refine (hrest a rfl).trans ⟨fun h => .inr ⟨hpasses, h⟩, ?_⟩
    exact fun h => (h.resolve_left nofun).2

end FirstFailure

namespace Value
variable {v : Value} {slot : Slot} {e : Refusal}

/-- The values of the types of integers, each with its integer. Truth values are none of them. -/
inductive IsInteger : Value → ℤ → Prop
  | int (n : ℤ) : IsInteger (.int n) n
  | sizedInt (t : SizedInt) (n : ℤ) : IsInteger (.sizedInt t n) n
  | foreign {x : ForeignValue} {n : ℤ} (h : x.integer? = some n) : IsInteger (.foreign x) n

theorem integer?_eq_some_iff {n : ℤ} : v.integer? = some n ↔ v.IsInteger n := by
  constructor
  · intro h
    cases v with
    | int => cases h; exact .int n
    | sizedInt t => cases h; exact .sizedInt t n
    | foreign x => exact .foreign h
    | _ => cases h
  · rintro (_ | _ | h)
    · rfl
    · rfl
    · exact h

theorem IsInteger.unique {m n : ℤ} (hm : v.IsInteger m) (hn : v.IsInteger n) : m = n :=
  Option.some.inj ((integer?_eq_some_iff.mpr hm).symm.trans (integer?_eq_some_iff.mpr hn))

/-- A value is no word because of its type, or else because of its range. -/
inductive Fails (slot : Slot) (v : Value) : Refusal → Prop
  | type (h : ∀ n, ¬v.IsInteger n) : Fails slot v (.notInteger slot v.typeName)
  | range {n : ℤ} (h : v.IsInteger n) (hn : n < 0 ∨ wordLimit ≤ n) :
    Fails slot v (.outOfRange slot n)

theorem Fails.category (h : v.Fails slot e) (limits : Text.Limits) :
    (e.report limits).category = .value := by
  cases h with
  | type => rfl
  | range => exact Refusal.category_report_outOfRange limits _ _

theorem word_eq_ok_iff {x : Word} : v.word slot = .ok x ↔ v.IsInteger x.val := by
  rw [← integer?_eq_some_iff, word]
  cases v.integer? with
  | none => exact ⟨nofun, nofun⟩
  | some n =>
    constructor
    · intro h
      dsimp only at h
      split at h
      · cases h
        rfl
      · cases h
    · intro h
      cases h
      exact dif_pos x.property

theorem word_eq_error_iff : v.word slot = .error e ↔ v.Fails slot e := by
  constructor
  · intro h
    unfold word at h
    split at h
    next hnone =>
      cases h
      refine .type fun n hn => ?_
      rw [integer?_eq_some_iff.mpr hn] at hnone
      cases hnone
    next n hsome =>
      split at h
      · cases h
      next hrange =>
        cases h
        exact .range (integer?_eq_some_iff.mp hsome) (by omega)
  · rintro (h | ⟨h, hn⟩)
    · have hnone : v.integer? = none := by
        rw [Option.eq_none_iff_forall_ne_some]
        exact fun n hn => h n (integer?_eq_some_iff.mp hn)
      rw [word, hnone]
    · rw [word, integer?_eq_some_iff.mpr h]
      exact dif_neg (by omega)

theorem operatorOf_eq_ok_iff {k : Kind} {op : k.Op} :
    v.operatorOf k = .ok op ↔ v = .operator (k.operator op) := by
  constructor
  · intro h
    cases v with
    | operator o => cases k <;> cases o <;> cases h <;> rfl
    | _ => cases h
  · rintro rfl
    cases k <;> rfl

/-- A value is no operator of a kind. -/
def WrongKind (kind : Kind) (v : Value) (e : Refusal) : Prop :=
  (∀ op : Operator, op.kind = kind → v ≠ .operator op) ∧ e = .wrongKind kind v

theorem operatorOf_eq_error_iff {k : Kind} : v.operatorOf k = .error e ↔ v.WrongKind k e := by
  constructor
  · intro h
    unfold operatorOf at h
    split at h <;> cases h
    next hnone =>
      refine ⟨?_, rfl⟩
      rintro (op | op) rfl rfl <;> cases hnone
  · rintro ⟨hne, rfl⟩
    unfold operatorOf
    split
    next op hsome =>
      have hv := operatorOf_eq_ok_iff.mp (show v.operatorOf k = .ok op by rw [operatorOf, hsome])
      exact absurd hv (hne _ (by cases k <;> rfl))
    next => rfl

end Value

/-- The result of the operator on the operands. -/
def Operation.computed : Operation → ℤ
  | word o => o.op.result o.first.val o.second.val
  | residue o => o.op.result o.first.val o.second.val o.modulus.val

/-- The result is no part of an operation on its own. -/
theorem Operation.ext_operands {o o' : Operation} (hop : o.operator = o'.operator)
    (hoperands : o.operands = o'.operands) : o = o' := by
  rcases o with o | o <;> rcases o' with o' | o'
  · injection hop with hop
    injection hoperands with hfirst hrest
    injection hrest with hsecond
    rw [← word_operation o, ← word_operation o', hop, hfirst, hsecond]
  · cases hop
  · cases hop
  · injection hop with hop
    injection hoperands with hfirst hrest
    injection hrest with hsecond hrest
    injection hrest with hmodulus
    rw [← residue_operation o, ← residue_operation o', hop, hfirst, hsecond, hmodulus]

/-- What an operation is to be built from. -/
inductive Request
  | word (operator first second : Value)
  | residue (operator first second modulus : Value)

namespace Request

def kind : Request → Kind
  | word _ _ _ => .word
  | residue _ _ _ _ => .residue

def operator : Request → Value
  | word v _ _ => v
  | residue v _ _ _ => v

def operands : Request → List Value
  | word _ a b => [a, b]
  | residue _ a b m => [a, b, m]

/-- The operation with its result computed. -/
def build : Request → Except Refusal Operation
  | word v a b => Operation.ofWords v a b
  | residue v a b m => Operation.ofResidue v a b m

/-- The operation with a result that is claimed. -/
def claim : Request → Value → Except Refusal Operation
  | word v a b, r => Operation.wordWithResult v a b r
  | residue v a b m, r => Operation.residueWithResult v a b m r

/-- An operation of the operator and the integers requested, with the result of that operator. -/
structure Describes (c : Request) (o : Operation) : Prop where
  operator : c.operator = .operator o.operator
  operands : List.Forall₂ (fun v x => v.IsInteger x.val) c.operands o.operands
  result : o.result.val = o.computed

def operandChecks (c : Request) : List (Refusal → Prop) :=
  ([Slot.first, .second, .third].zip c.operands).map fun s => s.2.Fails s.1

/-- The operator is checked first, and then each operand in its place. -/
def checks (c : Request) : List (Refusal → Prop) :=
  c.operator.WrongKind c.kind :: c.operandChecks

/-- A result is claimed that is an integer but not that of the operator. -/
inductive Disagrees (r : Value) : Request → Refusal → Prop
  | word {op : WordOp} {a b : Value} {x y z : ℤ} (ha : a.IsInteger x) (hb : b.IsInteger y)
    (hr : r.IsInteger z) (hne : z ≠ op.result x y) :
    Disagrees r (.word (.operator (.word op)) a b) (.wrongResult (.word op) z (op.result x y))
  | residue {op : ResidueOp} {a b m : Value} {x y u z : ℤ} (ha : a.IsInteger x)
    (hb : b.IsInteger y) (hm : m.IsInteger u) (hr : r.IsInteger z) (hne : z ≠ op.result x y u) :
    Disagrees r (.residue (.operator (.residue op)) a b m)
      (.wrongResult (.residue op) z (op.result x y u))

variable {c : Request} {o : Operation} {e : Refusal}

/-- The result computed is a word and agrees, so that the second round of checks passes. -/
theorem ofWords_eq (v a b : Value) : Operation.ofWords v a b = (do
    let op ← v.operatorOf .word
    let x ← a.word .first
    let y ← b.word .second
    return .word (op.operation x y)) := by
  unfold Operation.ofWords
  cases hop : v.operatorOf .word with
  | error e => rfl
  | ok op =>
    obtain rfl := Value.operatorOf_eq_ok_iff.mp hop
    change a.word .first >>= _ = a.word .first >>= _
    exact bind_congr fun x => bind_congr fun y => Operation.wordWithResult_int op x y

theorem ofResidue_eq (v a b m : Value) : Operation.ofResidue v a b m = (do
    let op ← v.operatorOf .residue
    let x ← a.word .first
    let y ← b.word .second
    let u ← m.word .third
    return .residue (op.operation x y u)) := by
  unfold Operation.ofResidue
  cases hop : v.operatorOf .residue with
  | error e => rfl
  | ok op =>
    obtain rfl := Value.operatorOf_eq_ok_iff.mp hop
    change a.word .first >>= _ = a.word .first >>= _
    exact bind_congr fun x => bind_congr fun y => bind_congr fun u =>
      Operation.residueWithResult_int op x y u

theorem build_eq_error_iff : c.build = .error e ↔ FirstFailure c.checks e := by
  have hnone {o : Operation} : Except.ok o = .error e ↔ FirstFailure [] e := ⟨nofun, nofun⟩
  cases c with
  | word v a b =>
    rw [build, ofWords_eq]
    refine FirstFailure.bind_eq_error_iff (fun _ => Value.operatorOf_eq_error_iff) fun op _ => ?_
    refine FirstFailure.bind_eq_error_iff (fun _ => Value.word_eq_error_iff) fun x _ => ?_
    refine FirstFailure.bind_eq_error_iff (fun _ => Value.word_eq_error_iff) fun y _ => ?_
    exact hnone
  | residue v a b m =>
    rw [build, ofResidue_eq]
    refine FirstFailure.bind_eq_error_iff (fun _ => Value.operatorOf_eq_error_iff) fun op _ => ?_
    refine FirstFailure.bind_eq_error_iff (fun _ => Value.word_eq_error_iff) fun x _ => ?_
    refine FirstFailure.bind_eq_error_iff (fun _ => Value.word_eq_error_iff) fun y _ => ?_
    refine FirstFailure.bind_eq_error_iff (fun _ => Value.word_eq_error_iff) fun u _ => ?_
    exact hnone

/-- The last check, once the result that is claimed is known to be a word. -/
theorem agreement_eq_error_iff {p : Prop} [Decidable p] {f : p → Operation} {refusal : Refusal} :
    (if h : p then pure (f h) else throw refusal : Except Refusal Operation) = .error e ↔
      ¬p ∧ e = refusal := by
  split
  next hp => exact ⟨nofun, fun h => absurd hp h.1⟩
  next hp =>
    constructor
    · intro h
      cases h
      exact ⟨hp, rfl⟩
    · rintro ⟨-, rfl⟩
      rfl

theorem disagrees_word_iff {r v a b : Value} {op : WordOp} {x y z : Word}
    (hv : v.operatorOf .word = .ok op) (hx : a.word .first = .ok x) (hy : b.word .second = .ok y)
    (hz : r.word .result = .ok z) :
    Disagrees r (.word v a b) e ↔ z.val ≠ op.result x.val y.val ∧
      e = .wrongResult (.word op) z.val (op.result x.val y.val) := by
  obtain rfl := Value.operatorOf_eq_ok_iff.mp hv
  rw [Value.word_eq_ok_iff] at hx hy hz
  constructor
  · rintro ⟨ha, hb, hr, hne⟩
    obtain rfl := ha.unique hx
    obtain rfl := hb.unique hy
    obtain rfl := hr.unique hz
    exact ⟨hne, rfl⟩
  · rintro ⟨hne, rfl⟩
    exact .word hx hy hz hne

theorem disagrees_residue_iff {r v a b m : Value} {op : ResidueOp} {x y u z : Word}
    (hv : v.operatorOf .residue = .ok op) (hx : a.word .first = .ok x) (hy : b.word .second = .ok y)
    (hu : m.word .third = .ok u) (hz : r.word .result = .ok z) :
    Disagrees r (.residue v a b m) e ↔ z.val ≠ op.result x.val y.val u.val ∧
      e = .wrongResult (.residue op) z.val (op.result x.val y.val u.val) := by
  obtain rfl := Value.operatorOf_eq_ok_iff.mp hv
  rw [Value.word_eq_ok_iff] at hx hy hu hz
  constructor
  · intro h
    cases h with
    | residue ha hb hm hr hne =>
      obtain rfl := ha.unique hx
      obtain rfl := hb.unique hy
      obtain rfl := hm.unique hu
      obtain rfl := hr.unique hz
      exact ⟨hne, rfl⟩
  · rintro ⟨hne, rfl⟩
    exact .residue hx hy hu hz hne

theorem claim_eq_error_iff {r : Value} :
    c.claim r = .error e ↔ FirstFailure (c.checks ++ [r.Fails .result, Disagrees r c]) e := by
  cases c with
  | word v a b =>
    rw [claim, Operation.wordWithResult]
    refine FirstFailure.bind_eq_error_iff (fun _ => Value.operatorOf_eq_error_iff) fun op hv => ?_
    refine FirstFailure.bind_eq_error_iff (fun _ => Value.word_eq_error_iff) fun x hx => ?_
    refine FirstFailure.bind_eq_error_iff (fun _ => Value.word_eq_error_iff) fun y hy => ?_
    refine FirstFailure.bind_eq_error_iff (fun _ => Value.word_eq_error_iff) fun z hz => ?_
    rw [FirstFailure.single_iff, disagrees_word_iff hv hx hy hz]
    exact agreement_eq_error_iff
  | residue v a b m =>
    rw [claim, Operation.residueWithResult]
    refine FirstFailure.bind_eq_error_iff (fun _ => Value.operatorOf_eq_error_iff) fun op hv => ?_
    refine FirstFailure.bind_eq_error_iff (fun _ => Value.word_eq_error_iff) fun x hx => ?_
    refine FirstFailure.bind_eq_error_iff (fun _ => Value.word_eq_error_iff) fun y hy => ?_
    refine FirstFailure.bind_eq_error_iff (fun _ => Value.word_eq_error_iff) fun u hu => ?_
    refine FirstFailure.bind_eq_error_iff (fun _ => Value.word_eq_error_iff) fun z hz => ?_
    rw [FirstFailure.single_iff, disagrees_residue_iff hv hx hy hu hz]
    exact agreement_eq_error_iff

theorem Disagrees.category {r : Value} (h : Disagrees r c e) (limits : Text.Limits) :
    (e.report limits).category = .value := by
  cases h <;> exact Refusal.category_report_wrongResult limits _ _ _

theorem category_of_mem_operandChecks {check : Refusal → Prop} (hcheck : check ∈ c.operandChecks)
    (h : check e) (limits : Text.Limits) : (e.report limits).category = .value := by
  obtain ⟨⟨slot, v⟩, -, rfl⟩ := List.mem_map.mp hcheck
  exact Value.Fails.category h limits

/-- What is no operator of the kind is quoted before it is reported as one of a wrong type. If it
cannot be quoted, that is what is reported. -/
structure BlamesOperator (limits : Text.Limits) (c : Request) (e : Refusal) : Prop where
  wrongKind : c.operator.WrongKind c.kind e
  quoted : ∀ s, c.operator.quote limits = .ok s →
    e.report limits = ⟨.type, "expected a " ++ c.kind.operatorName ++ ", got " ++ s⟩
  unquoted : ∀ f, c.operator.quote limits = .error f → e.report limits = f.report
  type_iff : (e.report limits).category = .type ↔
    ∀ f, c.operator.quote limits = .error f → f.report.category = .type

theorem blamesOperator_of_wrongKind (limits : Text.Limits) (h : c.operator.WrongKind c.kind e) :
    c.BlamesOperator limits e := by
  obtain rfl := h.2
  refine ⟨h, fun _ => Refusal.report_wrongKind_of_ok, fun _ => Refusal.report_wrongKind_of_error,
    ?_⟩
  cases hquote : c.operator.quote limits with
  | ok s =>
    rw [Refusal.report_wrongKind_of_ok hquote]
    exact ⟨fun _ => nofun, fun _ => rfl⟩
  | error f =>
    rw [Refusal.report_wrongKind_of_error hquote]
    constructor
    · rintro htype _ ⟨⟩
      exact htype
    · exact fun htype => htype f rfl

/-- The operator is blamed if it is none, and all else is reported as a matter of values. -/
theorem report_of_firstFailure {checks : List (Refusal → Prop)} (limits : Text.Limits)
    (hchecks : ∀ check ∈ checks, check e → (e.report limits).category = .value)
    (h : FirstFailure (c.operator.WrongKind c.kind :: checks) e) :
    c.BlamesOperator limits e ∨
      (∀ e', ¬c.operator.WrongKind c.kind e') ∧ (e.report limits).category = .value := by
  rcases FirstFailure.cons_iff.mp h with hkind | ⟨hpasses, h⟩
  · exact .inl (blamesOperator_of_wrongKind limits hkind)
  · obtain ⟨check, hmem, hcheck⟩ := h.exists_mem
    exact .inr ⟨hpasses, hchecks check hmem hcheck⟩

/-- What two values have in common that are given for the same operand. -/
def SameInteger (v v' : Value) : Prop := ∃ n, v.IsInteger n ∧ v'.IsInteger n

theorem SameInteger.eq {v v' : Value} {x y : Word} (h : SameInteger v v') (hx : v.IsInteger x.val)
    (hy : v'.IsInteger y.val) : x = y := by
  obtain ⟨n, hn, hn'⟩ := h
  exact Subtype.ext ((hx.unique hn).trans (hn'.unique hy))

theorem operands_unique {vs vs' : List Value} {xs ys : List Word}
    (hsame : List.Forall₂ SameInteger vs vs')
    (hxs : List.Forall₂ (fun v x => v.IsInteger x.val) vs xs)
    (hys : List.Forall₂ (fun v y => v.IsInteger y.val) vs' ys) : xs = ys := by
  induction hsame generalizing xs ys with
  | nil => rw [List.forall₂_nil_left_iff.mp hxs, List.forall₂_nil_left_iff.mp hys]
  | cons hv _ ih =>
    obtain ⟨x, xs', hx, hxs', rfl⟩ := List.forall₂_cons_left_iff.mp hxs
    obtain ⟨y, ys', hy, hys', rfl⟩ := List.forall₂_cons_left_iff.mp hys
    rw [hv.eq hx hy, ih hxs' hys']

/-- Requests for the same operator and the same integers describe the same operation. -/
theorem Describes.unique {c' : Request} {o' : Operation} (h : c.Describes o) (h' : c'.Describes o')
    (hop : c.operator = c'.operator) (hsame : List.Forall₂ SameInteger c.operands c'.operands) :
    o = o' := by
  refine Operation.ext_operands ?_ (operands_unique hsame h.operands h'.operands)
  injection h.operator.symm.trans (hop.trans h'.operator)

/-- A request was refused, with the result to be computed or claimed. -/
def Refuses (c : Request) (e : Refusal) : Prop := c.build = .error e ∨ ∃ r, c.claim r = .error e

theorem Refuses.report (h : c.Refuses e) (limits : Text.Limits) :
    c.BlamesOperator limits e ∨
      (∀ e', ¬c.operator.WrongKind c.kind e') ∧ (e.report limits).category = .value := by
  rcases h with h | ⟨r, h⟩
  · refine report_of_firstFailure limits ?_ (build_eq_error_iff.mp h)
    exact fun _ hcheck he => category_of_mem_operandChecks hcheck he limits
  · refine report_of_firstFailure limits ?_ (claim_eq_error_iff.mp h)
    intro check hcheck he
    rcases List.mem_append.mp hcheck with hcheck | hcheck
    · exact category_of_mem_operandChecks hcheck he limits
    · rcases List.mem_pair.mp hcheck with rfl | rfl
      · exact Value.Fails.category he limits
      · exact Disagrees.category he limits

end Request

end WordTrace

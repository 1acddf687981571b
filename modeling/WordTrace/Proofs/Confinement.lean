import WordTrace.Proofs.Recording

/-! # Recorders that come down to a patch

Nothing in a window has a say in what most recorders do. Such a recorder ends in the same way on
every window, with success or with the same fault, and until then has written the same values into
the same cells: a patch of the window.
-/

namespace WordTrace
open Limb (Fits)

def Side.pick {α : Type} (current next : α) : Side → α
  | .current => current
  | .next => next

/-- Values for some of the cells of a window. -/
def Patch := Side → Column → Option Felt

namespace Patch

def empty : Patch := fun _ _ => none

def single (side : Side) (c : Column) (x : Felt) : Patch :=
  fun s d => if s = side ∧ d = c then some x else none

/-- Where both patches have a value the second one counts. -/
def andThen (p q : Patch) : Patch := fun side c => (q side c).or (p side c)

/-- One limb after the other, as far as register and limbs both reach. -/
def ofLimbs (side : Side) : Register → List Felt → Patch
  | c :: register, x :: xs => (single side c x).andThen (ofLimbs side register xs)
  | _, _ => empty

/-- The patch has values for these columns of the two rows only. -/
def Within (p : Patch) (current next : Register) : Prop :=
  ∀ side c, p side c ≠ none → c ∈ side.pick current next

variable {p q : Patch} {side : Side} {current next : Register}

theorem within_empty : empty.Within current next := fun _ _ h => absurd rfl h

theorem within_single {c : Column} (hc : c ∈ side.pick current next) (x : Felt) :
    (single side c x).Within current next := by
  intro s d hd
  have hsd : s = side ∧ d = c := by_contra fun hne => hd (if_neg hne)
  rwa [hsd.1, hsd.2]

theorem Within.andThen (hp : p.Within current next) (hq : q.Within current next) :
    (p.andThen q).Within current next := by
  intro side c hc
  by_cases hqc : q side c = none
  · apply hp side c
    intro hpc
    exact hc (by rw [Patch.andThen, hpc, hqc]; rfl)
  · exact hq side c hqc

theorem within_ofLimbs {register : Register} {xs : List Felt}
    (h : ∀ c ∈ register.take xs.length, c ∈ side.pick current next) :
    (ofLimbs side register xs).Within current next := by
  induction register generalizing xs with
  | nil => exact within_empty
  | cons c register ih =>
    cases xs with
    | nil => exact within_empty
    | cons x xs =>
      rw [List.length_cons, List.take_succ_cons, List.forall_mem_cons] at h
      exact (within_single h.1 x).andThen (ih h.2)

theorem Within.eq_none (h : p.Within current next) {c : Column} (hc : c ∉ side.pick current next) :
    p side c = none := by_contra fun hne => hc (h side c hne)

@[simp] theorem andThen_self (p : Patch) : p.andThen p = p := by
  funext side c
  rw [andThen, Option.or_self]

end Patch

/-- The cells that a patch has a value for are set to it, all others are kept. -/
def Window.patch (w : Window) (p : Patch) : Window where
  row := ⟨Vector.ofFn fun c : Column => (p .current c).getD (w.row.get c)⟩
  next := ⟨Vector.ofFn fun c : Column => (p .next c).getD (w.next.get c)⟩

namespace Window

theorem get_patch (w : Window) (p : Patch) (side : Side) (c : Column) :
    ((w.patch p).get side).get c = (p side c).getD ((w.get side).get c) := by
  cases side <;> simp [patch, get, Row.get]

theorem ext_get {v w : Window} (h : ∀ side c, (v.get side).get c = (w.get side).get c) : v = w := by
  obtain ⟨r, s⟩ := v
  obtain ⟨r', s'⟩ := w
  obtain rfl : r = r' := Row.ext (h .current)
  obtain rfl : s = s' := Row.ext (h .next)
  rfl

theorem get_modify_set (w : Window) (side s : Side) (c d : Column) (x : Felt) :
    ((w.modify side (·.set c x)).get s).get d =
      if s = side ∧ d = c then x else (w.get s).get d := by
  rw [get_modify]
  by_cases hs : s = side <;> by_cases hd : d = c <;> simp [hs, hd, Row.get_set_of_ne]

@[simp] theorem patch_empty (w : Window) : w.patch .empty = w := by
  apply ext_get
  intro side c
  rw [get_patch]
  rfl

theorem modify_set (w : Window) (side : Side) (c : Column) (x : Felt) :
    w.modify side (·.set c x) = w.patch (.single side c x) := by
  apply ext_get
  intro s d
  rw [get_modify_set, get_patch, Patch.single]
  split <;> rfl

/-- What a patch does to a cell of zero and to a cell of one tells its value there, if it has
any. -/
theorem eq_of_patch_eq {p q : Patch} (h : ∀ w : Window, w.patch p = w.patch q) : p = q := by
  have hget (side : Side) (c : Column) (x : Felt) : (p side c).getD x = (q side c).getD x := by
    have hcell := congrArg (fun v => (v.get side).get c) (h (Window.zero.modify side (·.set c x)))
    simp only [get_patch, get_modify_set, and_self, if_true] at hcell
    exact hcell
  funext side c
  have h0 := hget side c 0
  have h1 := hget side c 1
  cases hp : p side c <;> cases hq : q side c <;>
    simp only [hp, hq, Option.getD_some, Option.getD_none] at h0 h1
  · rfl
  · exact absurd (h0.trans h1.symm) zero_ne_one
  · exact absurd (h1.symm.trans h0) one_ne_zero
  · rw [h0]

theorem patch_patch (w : Window) (p q : Patch) : (w.patch p).patch q = w.patch (p.andThen q) := by
  apply ext_get
  intro side c
  rw [get_patch, get_patch, get_patch, Patch.andThen]
  cases q side c <;> rfl

theorem modify_write (w : Window) (side : Side) (register : Register) (xs : List Felt) :
    w.modify side (·.write register xs) = w.patch (.ofLimbs side register xs) := by
  induction register generalizing w xs with
  | nil => cases side <;> exact (patch_empty w).symm
  | cons c register ih =>
    cases xs with
    | nil => cases side <;> exact (patch_empty w).symm
    | cons x xs =>
      have hsplit : w.modify side (·.write (c :: register) (x :: xs)) =
          (w.modify side (·.set c x)).modify side (·.write register xs) := by cases side <;> rfl
      rw [hsplit, ih, modify_set, patch_patch]
      rfl

end Window

namespace Recorder
variable {α β : Type} {current next : Register}

/-- Recording ends in the same way on every window, and all that becomes of the window is a patch in
these columns of its two rows. -/
def Confined (m : Recorder α) (current next : Register) : Prop :=
  ∃ outcome p, (∀ w, m.on w = (outcome, w.patch p)) ∧ p.Within current next

theorem confined_of_on {m : Recorder α} {outcome : Except Fault α}
    (h : ∀ w, m.on w = (outcome, w)) : m.Confined current next :=
  ⟨outcome, .empty, fun w => by rw [h, Window.patch_empty], Patch.within_empty⟩

theorem confined_pure (a : α) : (pure a : Recorder α).Confined current next :=
  confined_of_on (on_pure a)

theorem confined_throw (f : Fault) : (throw f : Recorder α).Confined current next :=
  confined_of_on (on_throw f)

theorem confined_assign {side : Side} {c : Column} (hc : c ∈ side.pick current next) (x : Felt) :
    (assign side c x).Confined current next :=
  ⟨.ok (), .single side c x, fun w => by rw [on_assign, Window.modify_set],
    Patch.within_single hc x⟩

/-- What is too long for its register is refused, and anything else fills the first columns. -/
theorem confined_write_take {side : Side} {register : Register} {limbs : List ℤ}
    (h : ∀ c ∈ register.take limbs.length, c ∈ side.pick current next) :
    (write side register limbs).Confined current next := by
  by_cases hlen : register.length < limbs.length
  · rw [write, if_pos hlen]
    exact confined_throw _
  · refine ⟨.ok (), .ofLimbs side register (limbs.map Felt.ofInt), ?_, ?_⟩
    · intro w
      rw [on_write side register limbs w (Nat.not_lt.mp hlen), Window.modify_write]
    · apply Patch.within_ofLimbs
      rwa [List.length_map]

theorem confined_write {side : Side} {register : Register}
    (h : ∀ c ∈ register, c ∈ side.pick current next) (limbs : List ℤ) :
    (write side register limbs).Confined current next :=
  confined_write_take fun c hc => h c (List.mem_of_mem_take hc)

/-- The rest need only be looked at for values that are reached. -/
theorem Confined.bind {m : Recorder α} {f : α → Recorder β} (hm : m.Confined current next)
    (hf : ∀ a, (∃ w v, m.on w = (.ok a, v)) → (f a).Confined current next) :
    (m >>= f).Confined current next := by
  obtain ⟨outcome, p, hrun, hp⟩ := hm
  cases outcome with
  | error e => exact ⟨.error e, p, fun w => on_bind_error (hrun w), hp⟩
  | ok a =>
    obtain ⟨outcome, q, hrest, hq⟩ := hf a ⟨.zero, _, hrun .zero⟩
    refine ⟨outcome, p.andThen q, ?_, hp.andThen hq⟩
    intro w
    rw [on_bind_ok (hrun w), hrest, Window.patch_patch]

theorem confined_lift_bind {x : Except Fault α} {f : α → Recorder β}
    (hf : ∀ a, x = .ok a → (f a).Confined current next) :
    ((monadLift x : Recorder α) >>= f).Confined current next := by
  refine (confined_of_on (on_monadLift x)).bind ?_
  rintro a ⟨w, v, hrun⟩
  exact hf a (Prod.mk.inj hrun).1

theorem confined_write_bind {register : Register} {limbs : List ℤ} {f : Unit → Recorder α}
    (h : ∀ c ∈ register, c ∈ current) (hf : (f ()).Confined current next) :
    (write .current register limbs >>= f).Confined current next :=
  Confined.bind (confined_write h limbs) fun _ _ => hf

theorem confined_writeWord {side : Side} {register : Register}
    (h : ∀ c ∈ register, c ∈ side.pick current next) (z : ℤ) :
    (writeWord side register z).Confined current next :=
  confined_lift_bind fun limbs _ => confined_write h limbs

theorem confined_writeWord_bind {register : Register} {z : ℤ} {f : Unit → Recorder α}
    (h : ∀ c ∈ register, c ∈ current) (hf : Fits 2 z → (f ()).Confined current next) :
    (writeWord .current register z >>= f).Confined current next := by
  refine (confined_writeWord h z).bind ?_
  rintro ⟨⟩ ⟨w, v, hrun⟩
  by_cases hz : Fits 2 z
  · exact hf hz
  · rw [on_writeWord_of_not_fits hz] at hrun
    cases hrun

theorem Confined.mono {m : Recorder α} {current' next' : Register} (h : m.Confined current next)
    (hc : current ⊆ current') (hn : next ⊆ next') : m.Confined current' next' := by
  obtain ⟨outcome, p, hrun, hp⟩ := h
  refine ⟨outcome, p, hrun, ?_⟩
  intro side c hne
  cases side
  · exact hc (hp .current c hne)
  · exact hn (hp .next c hne)

theorem Confined.congr {m m' : Recorder α} (h : m'.Confined current next)
    (hrun : ∀ w, m.on w = m'.on w) : m.Confined current next := by
  obtain ⟨outcome, p, hm', hp⟩ := h
  exact ⟨outcome, p, fun w => (hrun w).trans (hm' w), hp⟩

/-- A call made again finds everything as it would leave it. -/
theorem Confined.on_on {m : Recorder α} (h : m.Confined current next) (w : Window) :
    m.on (m.on w).2 = m.on w := by
  obtain ⟨outcome, p, hrun, -⟩ := h
  rw [hrun w, hrun, Window.patch_patch, Patch.andThen_self]

end Recorder

end WordTrace

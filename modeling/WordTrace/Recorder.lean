import WordTrace.Row

/-!
# Recorders

A recorder assigns cells of a window step by step and may stop with a fault. The cells assigned
before a fault stay assigned.
-/

namespace WordTrace

abbrev Recorder := ExceptT Fault (StateM Window)

namespace Recorder

variable {α β : Type}

/-- The outcome of recording on a window, and the window reached. -/
def on (m : Recorder α) (w : Window) : Except Fault α × Window := m.run.run w

@[simp] theorem on_pure (a : α) (w : Window) : on (pure a) w = (.ok a, w) := rfl

@[simp] theorem on_throw (f : Fault) (w : Window) :
    on (throw f : Recorder α) w = (.error f, w) := rfl

@[simp] theorem on_monadLift (x : Except Fault α) (w : Window) :
    on (monadLift x : Recorder α) w = (x, w) := rfl

theorem on_bind (m : Recorder α) (f : α → Recorder β) (w : Window) :
    on (m >>= f) w = match on m w with
      | (.ok a, v) => on (f a) v
      | (.error e, v) => (.error e, v) := by
  simp only [on, ExceptT.run_bind, StateT.run_bind]
  rcases m.run.run w with ⟨x | x, v⟩ <;> rfl

theorem on_bind_ok {m : Recorder α} {f : α → Recorder β} {w v : Window} {a : α}
    (h : on m w = (.ok a, v)) : on (m >>= f) w = on (f a) v := by
  rw [on_bind, h]

theorem on_bind_error {m : Recorder α} {f : α → Recorder β} {w v : Window} {e : Fault}
    (h : on m w = (.error e, v)) : on (m >>= f) w = (.error e, v) := by
  rw [on_bind, h]

def assign (side : Side) (c : Column) (x : Felt) : Recorder Unit :=
  modify fun w => w.modify side (·.set c x)

@[simp] theorem on_assign (side : Side) (c : Column) (x : Felt) (w : Window) :
    on (assign side c x) w = (.ok (), w.modify side (·.set c x)) := rfl

/-- A register takes at most one limb per column; columns beyond the limbs keep what they hold. -/
def write (side : Side) (register : Register) (limbs : List Int) : Recorder Unit :=
  if register.length < limbs.length then throw (.overfull limbs.length register.length)
  else modify fun w => w.modify side (·.write register (limbs.map Felt.ofInt))

theorem on_write (side : Side) (register : Register) (limbs : List Int) (w : Window)
    (h : limbs.length ≤ register.length) :
    on (write side register limbs) w =
      (.ok (), w.modify side (·.write register (limbs.map Felt.ofInt))) := by
  rw [write, if_neg (Nat.not_lt.2 h)]
  rfl

/-- A number that does not fit in two limbs is refused before anything is assigned. -/
def writeWord (side : Side) (register : Register) (z : Int) : Recorder Unit := do
  write side register (← Limb.splitWord z)

/-- The current row's register as it stands. -/
def read (register : Register) : Recorder (List Felt) := do
  return (← get).row.limbs register

@[simp] theorem on_read (register : Register) (w : Window) :
    on (read register) w = (.ok (w.row.limbs register), w) := rfl

end Recorder
end WordTrace

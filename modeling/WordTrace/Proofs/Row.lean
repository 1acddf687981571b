import WordTrace.Proofs.Limb

/-! # What writing leaves alone

A register written to holds the limbs written, every other register holds what it held, and a
recorder that writes a word on a window does nothing else.
-/

namespace WordTrace

namespace Row
variable (r : Row) {register other : Register} {c : Column}

theorem get_write_of_not_mem (xs : List Felt) (h : c ∉ register) :
    (r.write register xs).get c = r.get c := by
  induction register generalizing r xs with
  | nil => rfl
  | cons d register ih =>
    have hd := List.ne_of_not_mem_cons h
    have hrest := List.not_mem_of_not_mem_cons h
    cases xs with
    | nil => rfl
    | cons x xs => rw [write, ih _ xs hrest, get_set_of_ne r x hd]

/-- Columns beyond the limbs are not written. -/
theorem write_take (xs : List Felt) :
    r.write (register.take xs.length) xs = r.write register xs := by
  induction register generalizing r xs with
  | nil => simp
  | cons c register ih =>
    cases xs with
    | nil => rfl
    | cons x xs => rw [List.length_cons, List.take_succ_cons, write, write, ih]

theorem limbs_write_of_disjoint (xs : List Felt) (h : ∀ c ∈ other, c ∉ register) :
    (r.write register xs).limbs other = r.limbs other :=
  List.map_congr_left fun c hc => get_write_of_not_mem r xs (h c hc)

theorem limbs_set_of_not_mem (x : Felt) (h : c ∉ register) :
    (r.set c x).limbs register = r.limbs register :=
  List.map_congr_left fun _ hd => get_set_of_ne r x fun hdc => h (hdc ▸ hd)

/-- Limbs stand in the first columns of a register that is long enough for them. -/
theorem take_limbs_write {xs : List Felt} (hr : register.Nodup)
    (h : xs.length ≤ register.length) :
    ((r.write register xs).limbs register).take xs.length = xs := by
  induction register generalizing r xs with
  | nil => simp [List.eq_nil_of_length_eq_zero (Nat.le_zero.mp h)]
  | cons c register ih =>
    obtain ⟨hc, hr⟩ := List.nodup_cons.mp hr
    cases xs with
    | nil => rfl
    | cons x xs =>
      have hrest := ih (r.set c x) hr (by simpa using h)
      have hfirst : ((r.set c x).write register xs).get c = x := by
        rw [get_write_of_not_mem _ xs hc, get_set_self]
      simp only [write, limbs, List.map_cons, List.length_cons, List.take_succ_cons] at hrest ⊢
      rw [hfirst, hrest]

theorem limbs_write_self {xs : List Felt} (hr : register.Nodup)
    (h : xs.length = register.length) : (r.write register xs).limbs register = xs := by
  have htake := take_limbs_write r hr h.le
  rwa [h, List.take_of_length_le (by simp [limbs])] at htake

theorem limbs_write_cells {n : ℕ} (z : ℤ) (hr : register.Nodup) (h : register.length = n) :
    (r.write register (Limb.cells n z)).limbs register = Limb.cells n z :=
  limbs_write_self r hr (by rw [Limb.length_cells, h])

/-- What holds of every cell before, and of all limbs written, holds of every cell after. -/
theorem forall_get_write {P : Column → Felt → Prop} {xs : List Felt} (h : ∀ c, P c (r.get c))
    (hx : ∀ p ∈ register.zip xs, P p.1 p.2) (c : Column) : P c ((r.write register xs).get c) := by
  induction register generalizing r xs with
  | nil => exact h c
  | cons d register ih =>
    cases xs with
    | nil => exact h c
    | cons x xs =>
      rw [List.zip_cons_cons, List.forall_mem_cons] at hx
      refine ih _ ?_ hx.2
      intro e
      by_cases he : e = d
      · rw [he, get_set_self]
        exact hx.1
      · rw [get_set_of_ne r x he]
        exact h e

@[simp] theorem length_limbs (register : Register) : (r.limbs register).length = register.length :=
  List.length_map _

/-- Every cell holds a limb between zero and the base. -/
def InRange : Prop := ∀ c, (r.get c).val < 65536

theorem inRange_zero : zero.InRange := by
  intro c
  rw [get_zero]
  decide

variable {r}

theorem InRange.limbs (h : r.InRange) (register : Register) : Limb.InRange (r.limbs register) :=
  List.forall_mem_map.mpr fun c _ => h c

theorem InRange.set (h : r.InRange) {x : Felt} (hx : x.val < 65536) : (r.set c x).InRange := by
  intro d
  by_cases hd : d = c
  · rwa [hd, get_set_self]
  · rw [get_set_of_ne r x hd]
    exact h d

theorem InRange.write (h : r.InRange) {xs : List Felt} (hx : Limb.InRange xs) :
    (r.write register xs).InRange := by
  refine @forall_get_write r register (fun _ x => x.val < 65536) xs h ?_
  intro p hp
  exact hx p.2 (List.of_mem_zip hp).2

end Row

/-- Rows that agree in every column but those of a register. -/
def Row.SameBut (register : Register) (r s : Row) : Prop := ∀ c, c ∉ register → r.get c = s.get c

instance (register : Register) (r s : Row) : Decidable (r.SameBut register s) :=
  inferInstanceAs (Decidable (∀ c, c ∉ register → r.get c = s.get c))

namespace Row.SameBut
variable {register other : Register} {r s t : Row}

theorem limbs (h : r.SameBut register s)
    (hdisjoint : ∀ c ∈ other, c ∉ register := by decide) : r.limbs other = s.limbs other :=
  List.map_congr_left fun c hc => h c (hdisjoint c hc)

theorem trans (h : r.SameBut register s) (h' : s.SameBut register t) : r.SameBut register t :=
  fun c hc => (h c hc).trans (h' c hc)

theorem symm (h : r.SameBut register s) : s.SameBut register r := fun c hc => (h c hc).symm

theorem set_left (r : Row) (x : Felt) {c : Column} (hc : c ∈ register) :
    (r.set c x).SameBut register r :=
  fun _ hd => get_set_of_ne r x fun heq => hd (heq ▸ hc)

theorem write_left (r : Row) (xs : List Felt) (hsub : ∀ c ∈ other, c ∈ register) :
    (r.write other xs).SameBut register r :=
  fun c hc => get_write_of_not_mem r xs fun hother => hc (hsub c hother)

/-- Writing the same to both rows leaves them as much alike as they were. -/
theorem write (h : r.SameBut register s) (other : Register) (xs : List Felt) :
    (r.write other xs).SameBut register (s.write other xs) := by
  induction other generalizing r s xs with
  | nil => exact h
  | cons d other ih =>
    cases xs with
    | nil => exact h
    | cons x xs =>
      refine ih (r := r.set d x) (s := s.set d x) ?_ xs
      intro c hc
      by_cases hcd : c = d
      · rw [hcd, get_set_self, get_set_self]
      · rw [get_set_of_ne r x hcd, get_set_of_ne s x hcd, h c hc]

end Row.SameBut

namespace Window

@[simp] theorem modify_current (w : Window) (f : Row → Row) :
    w.modify .current f = ⟨f w.row, w.next⟩ := rfl

theorem get_modify (w : Window) (side s : Side) (f : Row → Row) :
    (w.modify side f).get s = if s = side then f (w.get s) else w.get s := by
  cases side <;> cases s <;> rfl

end Window

namespace Recorder

theorem on_writeWord {side : Side} {register : Register} {z : ℤ} (w : Window)
    (hr : register.length = 2) (hz : Limb.Fits 2 z) :
    on (writeWord side register z) w =
      (.ok (), w.modify side (·.write register (Limb.cells 2 z))) := by
  rw [writeWord, Limb.splitWord_of_fits hz, on_bind_ok (on_monadLift _ w),
    on_write side register _ w (by simp [hr])]
  rfl

theorem on_writeWord_of_not_fits {z : ℤ} (hz : ¬Limb.Fits 2 z) (side : Side) (register : Register)
    (w : Window) : on (writeWord side register z) w = (.error (.tooWide z 2), w) := by
  rw [writeWord, Limb.splitWord_of_not_fits hz, on_bind_error (on_monadLift _ w)]

theorem on_writeDigits (register : Register) (n : ℕ) (z : ℤ) (w : Window)
    (h : n = register.length) : on (write .current register (Limb.digits n z)) w =
      (.ok (), ⟨w.row.write register (Limb.cells n z), w.next⟩) :=
  on_write .current register _ w (by simp [h])

theorem on_splitWord {z : ℤ} (w : Window) (hz : Limb.Fits 2 z) :
    on (monadLift (Limb.splitWord z) : Recorder (List ℤ)) w = (.ok (Limb.digits 2 z), w) := by
  rw [Limb.splitWord_of_fits hz, on_monadLift]

end Recorder
end WordTrace

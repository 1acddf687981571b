import WordTrace.Proofs.Completeness
import WordTrace.Proofs.Confinement
import WordTrace.Proofs.Refusal

/-! # What a call writes

Every gadget has registers of its own, and what stands in a window has no say in what it writes
there. The one gadget that reads a register back finds what it has written itself. So a call ends in
the same way on every window, and making it again changes nothing.
-/

namespace WordTrace
open Limb (Fits)
open Recorder (Confined confined_pure confined_throw confined_assign confined_write
  confined_write_take confined_write_bind confined_lift_bind confined_writeWord
  confined_writeWord_bind)

namespace Chain

/-- A comparison has a register more than a sum. -/
def footprint (compares : Bool) : Register :=
  Layout.operand0 ++ Layout.operand1 ++ Layout.output ++ Layout.carry ++
    if compares then Layout.wrapped else []

theorem mem_footprint {register : Register} (compares : Bool)
    (h : ∀ c ∈ register, c ∈ footprint false := by decide) :
    ∀ c ∈ register, c ∈ footprint compares := by
  have hmono : ∀ compares, ∀ c ∈ footprint false, c ∈ footprint compares := by decide
  exact fun c hc => hmono compares c (h c hc)

theorem footprint_subset (compares : Bool) : footprint compares ⊆ footprint true := by
  revert compares
  decide

theorem confined_fill (a b : ℤ) (t : Terms) :
    (fill a b t).Confined (footprint t.wrapped.isSome) [] := by
  unfold fill
  refine confined_writeWord_bind (mem_footprint _) fun _ => ?_
  refine confined_writeWord_bind (mem_footprint _) fun _ => ?_
  refine confined_writeWord_bind (mem_footprint _) fun _ => ?_
  refine confined_lift_bind fun x _ => confined_lift_bind fun y _ => ?_
  refine confined_lift_bind fun z _ => confined_lift_bind fun carries _ => ?_
  refine confined_write_bind (mem_footprint _) ?_
  cases hw : t.wrapped with
  | none => exact confined_pure ()
  | some d => exact confined_writeWord (show ∀ c ∈ Layout.wrapped, c ∈ footprint true by decide) d

theorem confined_record (s a b : ℤ) : (record s a b).Confined
    (footprint (s = (WordOp.selector .lt).val ∨ s = (WordOp.selector .gt).val)) [] := by
  unfold record
  cases hterms : (WordOp.ofSelector? s).bind (terms? a b) with
  | none => exact confined_throw _
  | some t =>
    obtain ⟨op, hop, ht⟩ := Option.bind_eq_some_iff.mp hterms
    obtain rfl := eq_of_find?_beq hop
    have hfill := confined_fill a b t
    cases op <;> cases ht
    case some.add.refl | some.sub.refl | some.lt.refl | some.gt.refl => exact hfill

end Chain

/-- The registers of a product that is filled in next to its factors. -/
def Product.footprint : Register := Layout.output ++ Layout.carry

namespace Product

theorem confined_fill (left right : ℤ) : (fill left right).Confined footprint [] := by
  unfold fill
  refine confined_writeWord_bind (by decide) fun _ => ?_
  refine confined_lift_bind fun x _ => confined_lift_bind fun y _ => ?_
  refine confined_lift_bind fun z _ => confined_lift_bind fun carries _ => ?_
  exact confined_write (show ∀ c ∈ Layout.carry, c ∈ footprint by decide) carries

theorem confined_record (a b : ℤ) :
    (record a b).Confined (Layout.operand0 ++ Layout.operand1 ++ footprint) [] := by
  unfold record
  refine confined_writeWord_bind (by decide) fun _ => ?_
  refine confined_writeWord_bind (by decide) fun _ => ?_
  exact (confined_fill a b).mono (by decide) (by decide)

end Product

namespace Remainder

/-- The columns of so many carries, of the gap and of the inverse. -/
def settled (carries : ℕ) : Register :=
  Layout.productCarry.take carries ++ Layout.gap ++ [Layout.modulusInverse]

/-- The columns of the second row. For a zero modulus they are the flag alone. -/
def footprint (carries : ℕ) (modulus : ℤ) : Register :=
  if modulus = 0 then [Layout.modulusIsZero] else settled carries

theorem footprint_mem (carries : ℕ) (m : ℤ) {footprints : List Register}
    (h : [[Layout.modulusIsZero], settled carries] ⊆ footprints) :
    footprint carries m ∈ footprints := by
  apply h
  unfold footprint
  split <;> simp

theorem confined_record (carries : ℕ) (m r : ℤ) {current : Register} :
    (record m r).Confined current (footprint carries m) := by
  unfold record footprint
  split
  · exact confined_assign (List.mem_singleton.mpr rfl) 1
  · split
    · exact confined_throw _
    · refine Confined.bind (confined_assign ?_ _) fun _ _ => confined_writeWord ?_ _
      · simp [Side.pick, settled]
      · simp +contextual [Side.pick, settled]

theorem length_ofRoot {p carries : List ℤ} (h : Carry.ofRoot p = .ok carries) :
    carries.length = p.length - 1 := by
  unfold Carry.ofRoot at h
  split at h
  · cases h
  · split at h
    next settled hsettle =>
      rw [Carry.settle_eq] at hsettle
      split at hsettle <;> cases hsettle
      split at h <;> cases h
      simp
    · cases h

theorem confined_writeCarries {p : List ℤ} {m : ℤ} (hm : m ≠ 0) {current : Register} :
    (writeCarries p).Confined current (footprint (p.length - 1) m) := by
  unfold writeCarries
  refine confined_lift_bind fun carries hcarries => confined_write_take ?_
  rw [length_ofRoot hcarries, footprint, if_neg hm]
  simp +contextual [Side.pick, settled]

end Remainder

theorem Limb.length_of_split {z : ℤ} {n : ℕ} {xs : List ℤ} (h : split z n = .ok xs) :
    xs.length = n := by
  rw [split_eq] at h
  split at h <;> cases h
  exact length_digits n z

namespace Division

/-- The registers of a division that is filled in next to dividend and divisor. -/
def footprint : Register := Layout.output ++ Layout.quotient ++ Layout.remainder

theorem confined_writeCarries (a q r : ℤ) {b : ℤ} (hb : b ≠ 0) {current : Register} :
    (writeCarries a b q r).Confined current (Remainder.footprint 2 b) := by
  unfold writeCarries
  refine confined_lift_bind fun x hx => confined_lift_bind fun y hy => ?_
  refine confined_lift_bind fun z hz => confined_lift_bind fun u hu => ?_
  have hlen : (polynomial x y z u).length = 3 :=
    length_polynomial (Limb.length_of_split hx) (Limb.length_of_split hy)
      (Limb.length_of_split hz) (Limb.length_of_split hu)
  have hcarries := @Remainder.confined_writeCarries (polynomial x y z u) b hb current
  rwa [hlen] at hcarries

theorem confined_fill (s a b result : ℤ) :
    (fill s a b result).Confined footprint (Remainder.footprint 2 b) := by
  unfold fill
  dsimp only
  split
  · exact confined_throw _
  · split
    · refine confined_writeWord_bind (by decide) fun _ => ?_
      refine confined_writeWord_bind (by decide) fun _ => ?_
      refine confined_writeWord_bind (by decide) fun _ => ?_
      have hbound := @Remainder.confined_record 2 b (Remainder.remainder a b) footprint
      split
      · exact hbound
      · exact (confined_writeCarries _ _ _ ‹_›).bind fun _ _ => hbound
    · exact confined_throw _

theorem confined_record (s a b result : ℤ) : (record s a b result).Confined
    (Layout.operand0 ++ Layout.operand1 ++ footprint) (Remainder.footprint 2 b) := by
  unfold record
  refine confined_writeWord_bind (by decide) fun _ => ?_
  refine confined_writeWord_bind (by decide) fun _ => ?_
  exact (confined_fill s a b result).mono (by decide) (List.Subset.refl _)

end Division

namespace Shift

/-- The registers of the operands of a shift. -/
def operandColumns : Register := Layout.operand0 ++ Layout.operand1 ++ Layout.operand2

theorem eq_factor_of_ok {amount d : ℤ} (h : factor? amount = .ok d) : d = factor amount := by
  unfold factor? at h
  split at h <;> cases h
  rfl

theorem confined_operands {amount z : ℤ} {current next : Register} {rest : Recorder Unit}
    (h : ∀ c ∈ operandColumns, c ∈ current)
    (hrest : Fits 2 z → rest.Confined current next) :
    (do
      Recorder.writeWord .current Layout.operand0 amount
      Recorder.writeWord .current Layout.operand1 z
      Recorder.writeWord .current Layout.operand2 (factor amount)
      rest : Recorder Unit).Confined current next := by
  refine confined_writeWord_bind (fun c hc => h c (by revert c; decide)) fun _ => ?_
  refine confined_writeWord_bind (fun c hc => h c (by revert c; decide)) fun hz => ?_
  exact confined_writeWord_bind (fun c hc => h c (by revert c; decide)) fun _ => hrest hz

theorem confined_record_left (amount z result : ℤ) :
    (record .left amount z result).Confined (operandColumns ++ Product.footprint) [] := by
  unfold record
  refine confined_lift_bind fun d hd => ?_
  obtain rfl := eq_factor_of_ok hd
  refine confined_operands (by decide) fun hz => ?_
  have hread (v : Window) := on_fill_read hz (fits_factor amount) v (f := fun output => do
    let expected ← Limb.splitWord result
    if output = expected then pure () else throw (.wrongShift result output))
  refine Confined.congr ?_ hread
  refine Confined.bind ((Product.confined_fill _ _).mono (by decide) (by decide)) fun _ _ => ?_
  refine confined_lift_bind fun expected _ => ?_
  split
  · exact confined_pure ()
  · exact confined_throw _

theorem confined_record_right (amount z result : ℤ) : (record .right amount z result).Confined
    (operandColumns ++ Division.footprint) (Remainder.footprint 2 (factor amount)) := by
  unfold record
  refine confined_lift_bind fun d hd => ?_
  obtain rfl := eq_factor_of_ok hd
  refine confined_operands (by decide) fun _ => ?_
  exact (Division.confined_fill _ _ _ _).mono (by decide) (List.Subset.refl _)

end Shift

namespace Residue

/-- The registers of a residue in the first row. -/
def footprint : Register :=
  Layout.operand0 ++ Layout.operand1 ++ Layout.operand2 ++ Layout.output ++ Layout.wideQuotient

theorem confined_fill (op : ResidueOp) (a b m : ℤ) :
    (fill op a b m).Confined footprint (Remainder.footprint 4 m) := by
  unfold fill
  dsimp only
  refine confined_lift_bind fun x hx => confined_lift_bind fun y hy => ?_
  refine confined_lift_bind fun u hu => confined_lift_bind fun r hr => ?_
  refine confined_lift_bind fun q hq => ?_
  have hlen : (polynomial op x y u r q).length = 5 :=
    length_polynomial op (Limb.length_of_split hx) (Limb.length_of_split hy)
      (Limb.length_of_split hu) (Limb.length_of_split hr) (Limb.length_of_split hq)
  refine confined_write_bind (by decide) ?_
  refine confined_write_bind (by decide) ?_
  refine confined_write_bind (by decide) ?_
  refine confined_write_bind (by decide) ?_
  refine confined_write_bind (by decide) ?_
  have hbound := @Remainder.confined_record 4 m (Remainder.remainder (op.exact a b) m) footprint
  split
  · exact hbound
  · refine Confined.bind ?_ fun _ _ => hbound
    have hcarries := @Remainder.confined_writeCarries (polynomial op x y u r q) m ‹_› footprint
    rwa [hlen] at hcarries

theorem confined_record (s a b m : ℤ) :
    (record s a b m).Confined footprint (Remainder.footprint 4 m) := by
  unfold record
  split
  · exact confined_fill _ a b m
  · exact confined_throw _

end Residue

/-- A call of a gadget, or of a part that gadgets share, with its arguments. -/
inductive Call
  | chain (selector a b : ℤ)
  | product (a b : ℤ)
  | filledProduct (left right : ℤ)
  | division (selector a b result : ℤ)
  | filledDivision (selector dividend divisor result : ℤ)
  | remainder (modulus remainder : ℤ)
  | shift (direction : Shift.Direction) (amount z result : ℤ)
  | residue (selector a b m : ℤ)

namespace Call

def record : Call → Recorder Unit
  | chain s a b => Chain.record s a b
  | product a b => Product.record a b
  | filledProduct left right => Product.fill left right
  | division s a b result => Division.record s a b result
  | filledDivision s dividend divisor result => Division.fill s dividend divisor result
  | remainder m r => Remainder.record m r
  | shift direction amount z result => Shift.record direction amount z result
  | residue s a b m => Residue.record s a b m

/-- The columns of the first row that a call may write. -/
def current : Call → Register
  | chain s _ _ => Chain.footprint (s = (WordOp.selector .lt).val ∨ s = (WordOp.selector .gt).val)
  | product _ _ => Layout.operand0 ++ Layout.operand1 ++ Product.footprint
  | filledProduct _ _ => Product.footprint
  | division _ _ _ _ => Layout.operand0 ++ Layout.operand1 ++ Division.footprint
  | filledDivision _ _ _ _ => Division.footprint
  | remainder _ _ => []
  | shift .left _ _ _ => Shift.operandColumns ++ Product.footprint
  | shift .right _ _ _ => Shift.operandColumns ++ Division.footprint
  | residue _ _ _ _ => Residue.footprint

/-- The columns of the second row that a call may write. -/
def next : Call → Register
  | chain _ _ _ | product _ _ | filledProduct _ _ | shift .left _ _ _ => []
  | division _ _ divisor _ | filledDivision _ _ divisor _ => Remainder.footprint 2 divisor
  | remainder m _ => Remainder.footprint 0 m
  | shift .right amount _ _ => Remainder.footprint 2 (Shift.factor amount)
  | residue _ _ _ m => Remainder.footprint 4 m

theorem confined (call : Call) : call.record.Confined call.current call.next := by
  cases call with
  | chain s a b => exact Chain.confined_record s a b
  | product a b => exact Product.confined_record a b
  | filledProduct left right => exact Product.confined_fill left right
  | division s a b result => exact Division.confined_record s a b result
  | filledDivision s a b result => exact Division.confined_fill s a b result
  | remainder m r => exact Remainder.confined_record 0 m r
  | shift direction amount z result =>
    cases direction with
    | left => exact Shift.confined_record_left amount z result
    | right => exact Shift.confined_record_right amount z result
  | residue s a b m => exact Residue.confined_record s a b m

def IsChain : Call → Prop
  | chain _ _ _ => True
  | _ => False

def IsProduct : Call → Prop
  | product _ _ | filledProduct _ _ => True
  | _ => False

def IsShiftLeft : Call → Prop
  | shift .left _ _ _ => True
  | _ => False

/-- Right shifts are among the divisions. -/
def IsDivision : Call → Prop
  | division _ _ _ _ | filledDivision _ _ _ _ | remainder _ _ | shift .right _ _ _ => True
  | _ => False

def Compares : Call → Prop
  | chain s _ _ => s = (WordOp.selector .lt).val ∨ s = (WordOp.selector .gt).val
  | _ => False

/-- The third operand is given, or made. -/
def TakesThree : Call → Prop
  | shift _ _ _ _ | residue _ _ _ _ => True
  | _ => False

/-- The columns of the first row that belong to gadgets. -/
def columns : Register :=
  Layout.operand0 ++ Layout.operand1 ++ Layout.operand2 ++ Layout.output ++ Layout.auxiliary0 ++
    Layout.wrapped

theorem current_subset (call : Call) : call.current ⊆ columns := by
  cases call with
  | chain => exact List.Subset.trans (Chain.footprint_subset _) (by decide)
  | shift direction _ _ _ => cases direction <;> (dsimp only [current]; decide)
  | _ => dsimp only [current]; decide

def divisionSettlements : List Register :=
  [[Layout.modulusIsZero], Remainder.settled 0, Remainder.settled 2]

theorem next_mem_of_isDivision {call : Call} (h : call.IsDivision) :
    call.next ∈ divisionSettlements := by
  cases call with
  | chain | product | filledProduct | residue => exact h.elim
  | division _ _ b _ => exact Remainder.footprint_mem 2 b (by decide)
  | filledDivision _ _ b _ => exact Remainder.footprint_mem 2 b (by decide)
  | remainder m _ => exact Remainder.footprint_mem 0 m (by decide)
  | shift direction amount _ _ =>
    cases direction with
    | left => exact h.elim
    | right => exact Remainder.footprint_mem 2 (Shift.factor amount) (by decide)

/-- All that a call may do to a second row, the first of it to leave the row alone. -/
def settlements : List Register := [] :: divisionSettlements ++ [Remainder.settled 4]

theorem next_mem (call : Call) : call.next ∈ settlements := by
  have hdivision : call.IsDivision → call.next ∈ settlements := fun h =>
    List.mem_append_left _ (List.mem_cons_of_mem _ (next_mem_of_isDivision h))
  cases call with
  | chain | product | filledProduct => exact List.mem_cons_self
  | division | filledDivision | remainder => exact hdivision trivial
  | shift direction =>
    cases direction with
    | left => exact List.mem_cons_self
    | right => exact hdivision trivial
  | residue _ _ _ m => exact Remainder.footprint_mem 4 m (by decide)

/-- What a call writes, here `p`, stays in the registers of its gadget. No gadget has a selector or
the upper half of the second auxiliary register. -/
structure Keeps (call : Call) (p : Patch) : Prop where
  reserved : ∀ side, ∀ c ∈ Layout.selectors ++ [26, 27], p side c = none
  chain_or_product : call.IsChain ∨ call.IsProduct → ∀ c, p .current c ≠ none →
    c ∈ Layout.operand0 ++ Layout.operand1 ++ Layout.output ++ Layout.carry ∨
      c ∈ Layout.wrapped ∧ call.Compares
  operand2 : ∀ side, ∀ c ∈ Layout.operand2, p side c ≠ none → call.TakesThree
  one_row : call.IsChain ∨ call.IsProduct ∨ call.IsShiftLeft → ∀ c, p .next c = none
  modulus_current : ∀ c ∈ [Layout.modulusIsZero, Layout.modulusInverse], p .current c = none
  modulus_next : p .next Layout.modulusIsZero = none ∨ p .next Layout.modulusInverse = none
  division : call.IsDivision → ∀ c ∈ [(22 : Column), 23], p .next c = none

theorem next_eq_nil {call : Call} (h : call.IsChain ∨ call.IsProduct ∨ call.IsShiftLeft) :
    call.next = [] := by
  cases call with
  | chain | product | filledProduct => rfl
  | shift direction =>
    cases direction with
    | left => rfl
    | right => simp [IsChain, IsProduct, IsShiftLeft] at h
  | _ => simp [IsChain, IsProduct, IsShiftLeft] at h

theorem current_of_chain_or_product {call : Call} (h : call.IsChain ∨ call.IsProduct) {c : Column}
    (hc : c ∈ call.current) :
    c ∈ Layout.operand0 ++ Layout.operand1 ++ Layout.output ++ Layout.carry ∨
      c ∈ Layout.wrapped ∧ call.Compares := by
  cases call with
  | chain s _ _ =>
    refine (List.mem_append.mp hc).imp_right fun hwrapped => ?_
    by_cases hs : s = (WordOp.selector .lt).val ∨ s = (WordOp.selector .gt).val
    · simp only [hs] at hwrapped
      exact ⟨hwrapped, hs⟩
    · simp [hs] at hwrapped
  | product | filledProduct =>
    left
    revert c
    dsimp only [current]
    decide
  | _ => simp [IsChain, IsProduct] at h

theorem takesThree_of_mem {call : Call} {c : Column} (hc : c ∈ Layout.operand2)
    (h : c ∈ call.current) : call.TakesThree := by
  have hnone (register : Register) (hr : ∀ c ∈ Layout.operand2, c ∉ register) : c ∉ register :=
    hr c hc
  cases call with
  | chain => exact absurd (Chain.footprint_subset _ h) (hnone _ (by decide))
  | product | filledProduct | division | filledDivision | remainder =>
    exact absurd h (hnone _ (by dsimp only [current]; decide))
  | shift | residue => trivial

theorem keeps_of_within {call : Call} {p : Patch} (h : p.Within call.current call.next) :
    call.Keeps p := by
  have hcurrent {c : Column} (hc : c ∉ columns) : p .current c = none :=
    h.eq_none (mt (call.current_subset ·) hc)
  have hnext {c : Column} (hc : ∀ register ∈ settlements, c ∉ register) : p .next c = none :=
    h.eq_none (hc _ call.next_mem)
  constructor
  case reserved =>
    intro side c hc
    cases side
    · exact hcurrent (by revert c; decide)
    · exact hnext (by revert c; decide)
  case chain_or_product =>
    intro hcall c hc
    exact current_of_chain_or_product hcall (h .current c hc)
  case operand2 =>
    intro side c hc
    have hfree : p .next c = none := hnext (by revert c; decide)
    intro hne
    cases side
    · exact takesThree_of_mem hc (h .current c hne)
    · exact absurd hfree hne
  case one_row =>
    intro hcall c
    apply h.eq_none
    rw [Side.pick, next_eq_nil hcall]
    exact List.not_mem_nil
  case modulus_current =>
    intro c hc
    exact hcurrent (by revert c; decide)
  case modulus_next =>
    have hor : ∀ register ∈ settlements,
        Layout.modulusIsZero ∉ register ∨ Layout.modulusInverse ∉ register := by decide
    exact (hor _ call.next_mem).imp h.eq_none h.eq_none
  case division =>
    intro hcall c hc
    have hnot : ∀ register ∈ divisionSettlements, c ∉ register := by
      revert c
      decide
    exact h.eq_none (hnot _ (next_mem_of_isDivision hcall))

/-- A call ends alike on all windows, and has set the same cells to the same values and kept all
others. These cells are in the registers of its gadget, and a call made again changes nothing. -/
theorem effect_fixed (call : Call) : ∃ outcome p,
    (∀ w, call.record.on w = (outcome, w.patch p)) ∧
      (∀ q, (∀ w, (call.record.on w).2 = w.patch q) → q = p) ∧ call.Keeps p ∧
      ∀ w, call.record.on (call.record.on w).2 = call.record.on w := by
  obtain ⟨outcome, p, hrun, hp⟩ := call.confined
  refine ⟨outcome, p, hrun, ?_, keeps_of_within hp, call.confined.on_on⟩
  intro q hq
  apply Window.eq_of_patch_eq
  intro w
  rw [← hq w, hrun w]

end Call
end WordTrace

import WordTrace.Proofs.Completeness
import WordTrace.Proofs.Remainder

/-! # Carry chains are bound without range checks on carries

Two words that exceed a third by a multiple of `2^32` leave one choice for any of the three, once
the other two are known. Every column of a chain is then the one that its gadget records. For a
comparison the output needs no range check either: it repeats the last carry.
-/

namespace WordTrace
open Limb (InRange number valueFelt cells base)

namespace Chain
variable {r r' : Row} {x y z : Register}

/-- Two words exceed the third by a multiple of `2^32`, over the integers, because the last carry is
zero or one. -/
theorem dvd_of_holds (h : Holds r x y z) (hx : InRange (r.limbs x)) (hy : InRange (r.limbs y))
    (hz : InRange (r.limbs z)) (hlx : x.length = 2) (hly : y.length = 2) (hlz : z.length = 2) :
    base ^ 2 ∣ number (r.limbs x) + number (r.limbs y) - number (r.limbs z) := by
  obtain ⟨hx0, hx⟩ := hx.word_bounds ((r.length_limbs x).trans hlx)
  obtain ⟨hy0, hy⟩ := hy.word_bounds ((r.length_limbs y).trans hly)
  obtain ⟨hz0, hz⟩ := hz.word_bounds ((r.length_limbs z).trans hlz)
  have htop : Felt.booleanity (r.get Layout.topCarry) = 0 :=
    h.binary _ (List.mem_map_of_mem (by decide))
  obtain ⟨bit, hbit, hcarry⟩ : ∃ bit : ℤ, (bit = 0 ∨ bit = 1) ∧
      r.get Layout.topCarry = Felt.ofInt bit := by
    rcases (Felt.booleanity_eq_zero_iff _).mp htop with hc | hc
    · exact ⟨0, .inl rfl, hc⟩
    · exact ⟨1, .inr rfl, hc⟩
  have hlen : (LimbPoly.difference (r.limbs z)
      (LimbPoly.sum (r.limbs x) (r.limbs y))).length = 2 := by
    simp [hlx, hly, hlz]
  have hvalue := Carry.valueFelt_of_vanish (List.ne_nil_of_length_pos (by omega)) h.sum
  have hlast : (r.limbs Layout.carry).getD (2 - 1) 0 = Felt.ofInt bit := hcarry
  rw [hlen, hlast, LimbPoly.valueFelt_difference, LimbPoly.valueFelt_sum, ← Limb.ofInt_number,
    ← Limb.ofInt_number, ← Limb.ofInt_number, ← Felt.ofInt_base] at hvalue
  have hfield : Felt.ofInt (number (r.limbs x) + number (r.limbs y)) =
      Felt.ofInt (number (r.limbs z) + base ^ 2 * bit) := by
    rw [pow_two, Felt.ofInt_add, Felt.ofInt_add, Felt.ofInt_mul, Felt.ofInt_mul]
    linear_combination -hvalue
  have hsum : number (r.limbs x) + number (r.limbs y) = number (r.limbs z) + base ^ 2 * bit := by
    refine Felt.eq_of_ofInt_eq hfield ?_
    rw [abs_lt]
    simp only [wordLimit, prime, base] at *
    omega
  exact ⟨bit, by linarith⟩

/-- The carries of a chain are no matter of choice. -/
theorem carry_unique (h : Holds r x y z) (h' : Holds r' x y z) (hx : r.limbs x = r'.limbs x)
    (hy : r.limbs y = r'.limbs y) (hz : r.limbs z = r'.limbs z) (hlz : z.length = 2) :
    r.limbs Layout.carry = r'.limbs Layout.carry := by
  have hsum := h.sum
  have hlen (s : Row) : (s.limbs Layout.carry).length = 2 := s.length_limbs _
  rw [hx, hy, hz] at hsum
  refine Carry.eq_of_vanish ((hlen r).trans (hlen r').symm) ?_ hsum h'.sum
  rw [hlen, LimbPoly.length_difference, Row.length_limbs, hlz]
  exact le_max_left _ _

/-- The output of a comparison repeats the last carry, so equal carries make equal outputs. -/
theorem Compares.output_eq (h : Compares r) (h' : Compares r')
    (hcarry : r.limbs Layout.carry = r'.limbs Layout.carry) :
    r.limbs Layout.output = r'.limbs Layout.output := by
  have htop : r.get Layout.topCarry = r'.get Layout.topCarry :=
    List.map_inj_left.mp hcarry _ (by decide)
  have hlow := h.low.trans (htop.trans h'.low.symm)
  have hhigh := h.high.trans h'.high.symm
  simp only [Row.limbs, Layout.output, List.map_cons, List.map_nil, hlow, hhigh]

/-- Rows that agree in output and carries, and for a comparison in the wrapped difference. -/
structure Agree (op : WordOp) (row row' : Row) : Prop where
  output : row.limbs Layout.output = row'.limbs Layout.output
  carry : row.limbs Layout.carry = row'.limbs Layout.carry
  wrapped : op = .lt ∨ op = .gt → row.limbs Layout.wrapped = row'.limbs Layout.wrapped

end Chain

namespace WordOp
variable {op : WordOp} {w w' : Window}

/-- The register that the operands leave to be solved for. -/
def solvedRegister : WordOp → Register
  | lt | gt => Layout.wrapped
  | _ => Layout.output

/-- What solving gives. -/
def solved : WordOp → ℤ → ℤ → ℤ
  | add, a, b => wrap (a + b)
  | gt, a, b => wrap (b - a)
  | _, a, b => wrap (a - b)

/-- Both operands and the register solved for consist of limbs; nothing is said of carries. -/
structure SumChecked (op : WordOp) (r : Row) : Prop where
  first : InRange (r.limbs Layout.operand0)
  second : InRange (r.limbs Layout.operand1)
  solved : InRange (r.limbs op.solvedRegister)

instance (op : WordOp) (r : Row) : Decidable (op.SumChecked r) :=
  decidable_of_iff (InRange (r.limbs Layout.operand0) ∧ InRange (r.limbs Layout.operand1) ∧
      InRange (r.limbs op.solvedRegister))
    ⟨fun ⟨ha, hb, hs⟩ => ⟨ha, hb, hs⟩, fun ⟨ha, hb, hs⟩ => ⟨ha, hb, hs⟩⟩

/-- Range checks fix the number solved for, whatever the carries are. -/
theorem number_solvedRegister (h : op.Adds) (hholds : (Operator.word op).Holds w)
    (hw : op.SumChecked w.row) : number (w.row.limbs op.solvedRegister) =
      op.solved (number (w.row.limbs Layout.operand0)) (number (w.row.limbs Layout.operand1)) := by
  have hlen : op.solvedRegister.length = 2 := by cases op <;> rfl
  have hbounds := hw.solved.word_bounds ((w.row.length_limbs _).trans hlen)
  -- solving for a summand turns the difference that is divisible around
  have hsummand {x y z : ℤ} (hd : base ^ 2 ∣ x + y - z) : base ^ 2 ∣ z - y - x := by
    rw [show z - y - x = -(x + y - z) by ring]
    exact hd.neg_right
  rcases h with rfl | rfl | rfl | rfl
  · have hd := Chain.dvd_of_holds hholds hw.first hw.second hw.solved rfl rfl rfl
    exact eq_wrap_of_dvd hbounds hd
  · have hd := Chain.dvd_of_holds hholds hw.solved hw.second hw.first rfl rfl rfl
    exact eq_wrap_of_dvd hbounds (hsummand hd)
  · have hd := Chain.dvd_of_holds hholds.1 hw.solved hw.second hw.first rfl rfl rfl
    exact eq_wrap_of_dvd hbounds (hsummand hd)
  · have hd := Chain.dvd_of_holds hholds.1 hw.solved hw.first hw.second rfl rfl rfl
    exact eq_wrap_of_dvd hbounds (hsummand hd)

/-- Operands and the register solved for leave one choice for the rest of the record. -/
theorem agree_of_holds (h : op.Adds) (hholds : (Operator.word op).Holds w)
    (hholds' : (Operator.word op).Holds w')
    (hfirst : w.row.limbs Layout.operand0 = w'.row.limbs Layout.operand0)
    (hsecond : w.row.limbs Layout.operand1 = w'.row.limbs Layout.operand1)
    (hsolved : w.row.limbs op.solvedRegister = w'.row.limbs op.solvedRegister) :
    Chain.Agree op w.row w'.row := by
  rcases h with rfl | rfl | rfl | rfl
  · exact ⟨hsolved, Chain.carry_unique hholds hholds' hfirst hsecond hsolved rfl, by simp⟩
  · exact ⟨hsolved, Chain.carry_unique hholds hholds' hsolved hsecond hfirst rfl, by simp⟩
  · have hcarry := Chain.carry_unique hholds.1 hholds'.1 hsolved hsecond hfirst rfl
    exact ⟨hholds.2.output_eq hholds'.2 hcarry, hcarry, fun _ => hsolved⟩
  · have hcarry := Chain.carry_unique hholds.1 hholds'.1 hsolved hfirst hsecond rfl
    exact ⟨hholds.2.output_eq hholds'.2 hcarry, hcarry, fun _ => hsolved⟩

theorem limbs_solvedRegister_filled {a b : ℤ} {t : Chain.Terms} (r : Row)
    (h : Chain.terms? a b op = some t) :
    (Chain.filled r a b t).limbs op.solvedRegister = cells 2 (op.solved a b) := by
  cases op <;> cases h
  case add => exact Chain.limbs_output_filled _ _ _ _
  case sub => exact Chain.limbs_output_filled _ _ _ _
  case lt => exact Chain.limbs_wrapped_filled _ _ _ rfl
  case gt => exact Chain.limbs_wrapped_filled _ _ _ rfl

/-- Once the table accepts a window under an operator that is recorded as a sum, range checks on
both operands and on the output, or for a comparison on the wrapped difference in place of the
output, make its row the row of the operation in every column of the chain. -/
theorem chain_determined (h : op.Adds) (haccepts : Table.accepts w = true)
    (hselector : w.row.get op.selector = 1) (hw : op.SumChecked w.row) :
    ∃ (a b : Word) (rows : Rows),
      (w.row.read Layout.operand0).value = Felt.ofInt a.val ∧
      (w.row.read Layout.operand1).value = Felt.ofInt b.val ∧
      (w.row.read Layout.output).value = Felt.ofInt (op.result a.val b.val) ∧
      (Operation.word (op.operation a b)).rows = .ok rows ∧
      Chain.Agree op w.row rows.row := by
  obtain ⟨-, hholds⟩ := @Table.holds_of_accepts w (.word op) haccepts hselector
  have hlen (register : Register) (hl : register.length = 2) :
      (w.row.limbs register).length = 2 := (w.row.length_limbs register).trans hl
  have hlsolved : op.solvedRegister.length = 2 := by cases op <;> rfl
  let a : Word := ⟨_, hw.first.word_bounds (hlen Layout.operand0 rfl)⟩
  let b : Word := ⟨_, hw.second.word_bounds (hlen Layout.operand1 rfl)⟩
  obtain ⟨t, ht⟩ := exists_terms h a.val b.val
  let filled := Chain.filled (Operation.start (.word op)).row a.val b.val t
  have hfirst : w.row.limbs Layout.operand0 = filled.limbs Layout.operand0 :=
    (hw.first.eq_cells_of_number (hlen Layout.operand0 rfl) rfl).trans
      (Chain.limbs_operand0_filled _ _ _ _).symm
  have hsecond : w.row.limbs Layout.operand1 = filled.limbs Layout.operand1 :=
    (hw.second.eq_cells_of_number (hlen Layout.operand1 rfl) rfl).trans
      (Chain.limbs_operand1_filled _ _ _ _).symm
  have hsolved : w.row.limbs op.solvedRegister = filled.limbs op.solvedRegister :=
    (hw.solved.eq_cells_of_number (hlen _ hlsolved) (number_solvedRegister h hholds hw)).trans
      (limbs_solvedRegister_filled _ ht).symm
  have hagree : Chain.Agree op w.row filled :=
    agree_of_holds h hholds (Chain.holds_filled _ .zero ht) hfirst hsecond hsolved
  refine ⟨a, b, _, (Limb.ofInt_number _).symm, (Limb.ofInt_number _).symm, ?_,
    (records_of_terms ht).rows, hagree⟩
  have houtput : w.row.limbs Layout.output = cells 2 (op.result a.val b.val) := by
    rw [hagree.output, ← output_of_terms ht]
    exact Chain.limbs_output_filled _ _ _ _
  have hbounds := op.result_bounds a b
  exact (congrArg valueFelt houtput).trans
    (Limb.valueFelt_cells (fits_of_bounds hbounds.1 hbounds.2))

/-- Three is less than five, and the difference wraps around. -/
theorem chain_determined_lt :
    let w : Window := ⟨Chain.filled (Operation.start (.word .lt)).row 3 5
      ⟨1, some 4294967294, 4294967294, 5, 3⟩, .zero⟩
    ∃ (a b : Word) (rows : Rows),
      (w.row.read Layout.operand0).value = Felt.ofInt a.val ∧
      (w.row.read Layout.operand1).value = Felt.ofInt b.val ∧
      (w.row.read Layout.output).value = Felt.ofInt (result .lt a.val b.val) ∧
      (Operation.word (operation .lt a b)).rows = .ok rows ∧
      Chain.Agree .lt w.row rows.row :=
  chain_determined (.inr (.inr (.inl rfl))) (by decide +kernel) (by decide +kernel)
    (by decide +kernel)

end WordOp
end WordTrace

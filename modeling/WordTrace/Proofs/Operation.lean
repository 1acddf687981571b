import WordTrace.Proofs.Recording

/-! # Results and records of operations

On words every operator yields a word, so the operation is built and its gadget records it. The
three operators that divide differ in the registers they read and in nothing else.
-/

namespace WordTrace
open Limb (Fits cells)
open Remainder (quotient remainder)

namespace Remainder
variable {z m : ℤ}

theorem quotient_nonneg (h0 : 0 ≤ z) (hm : 0 ≤ m) : 0 ≤ quotient z m := by
  unfold quotient
  split
  · exact le_rfl
  · rw [Int.fdiv_eq_ediv_of_nonneg z hm]
    exact Int.ediv_nonneg h0 hm

theorem quotient_bounds (h0 : 0 ≤ z) (hz : z < wordLimit) (hm : 0 ≤ m) :
    0 ≤ quotient z m ∧ quotient z m < wordLimit := by
  have habs := natAbs_quotient_le z m
  have hnonneg := quotient_nonneg h0 hm
  omega

theorem remainder_bounds (h0 : 0 ≤ m) (hm : m < wordLimit) :
    0 ≤ remainder z m ∧ remainder z m < wordLimit := by
  have hnonneg := remainder_nonneg (z := z) h0
  rcases h0.eq_or_lt with rfl | hpos
  · exact ⟨hnonneg, by rw [remainder_zero]; exact hm⟩
  · have hlt := remainder_lt (z := z) hpos
    omega

end Remainder

namespace WordOp

theorem result_shl (s z : ℤ) : result .shl s z = wrap (z * Shift.factor s) := by
  by_cases h : s ≥ 32
  · rw [result, Shift.factor, if_pos h, if_pos h, mul_zero]
    rfl
  · rw [result, if_neg h, Shift.factor_eq (not_le.mp h), Int.shiftLeft_eq]

theorem result_shr (s z : ℤ) : result .shr s z = quotient z (Shift.factor s) := by
  by_cases h : s ≥ 32
  · rw [result, Shift.factor, if_pos h, if_pos h]
    rfl
  · have hpos : (0 : ℤ) < 2 ^ s.toNat := by positivity
    rw [result, if_neg h, Shift.factor_eq (not_le.mp h), quotient, if_neg hpos.ne',
      Int.fdiv_eq_ediv_of_nonneg z hpos.le, Int.shiftRight_eq_div_pow]
    norm_cast

theorem result_bounds (op : WordOp) (a b : Word) :
    0 ≤ op.result a.val b.val ∧ op.result a.val b.val < wordLimit := by
  obtain ⟨a, ha0, ha⟩ := a
  obtain ⟨b, hb0, hb⟩ := b
  have hwrap (z : ℤ) : 0 ≤ wrap z ∧ wrap z < wordLimit := ⟨wrap_nonneg z, wrap_lt z⟩
  have hbit (p : Prop) [Decidable p] :
      (0 : ℤ) ≤ (if p then 1 else 0) ∧ (if p then 1 else 0 : ℤ) < wordLimit := by
    split <;> decide
  cases op
  case add => exact hwrap _
  case mul => exact hwrap _
  case sub => exact hwrap _
  case div => exact Remainder.quotient_bounds ha0 ha hb0
  case mod => exact Remainder.remainder_bounds hb0 hb
  case lt => exact hbit _
  case gt => exact hbit _
  case shl =>
    rw [result_shl]
    exact hwrap _
  case shr =>
    rw [result_shr]
    exact Remainder.quotient_bounds hb0 hb (Shift.factor_bounds a).1

/-- The operation of an operator on words. -/
def operation (op : WordOp) (a b : Word) : WordOperation :=
  ⟨op, a, b, ⟨op.result a.val b.val, op.result_bounds a b⟩, rfl⟩

end WordOp

namespace ResidueOp

theorem result_bounds (op : ResidueOp) (a b m : Word) :
    0 ≤ op.result a.val b.val m.val ∧ op.result a.val b.val m.val < wordLimit :=
  Remainder.remainder_bounds m.property.1 m.property.2

/-- The operation of an operator on words. -/
def operation (op : ResidueOp) (a b m : Word) : ResidueOperation :=
  ⟨op, a, b, m, ⟨op.result a.val b.val m.val, op.result_bounds a b m⟩, rfl⟩

end ResidueOp

theorem Value.word_int (slot : Slot) (a : Word) : (Value.int a.val).word slot = .ok a :=
  dif_pos a.property

namespace Operation

/-- The result of words passes all checks. -/
theorem wordWithResult_int (op : WordOp) (a b : Word) :
    wordWithResult (.operator (.word op)) (.int a.val) (.int b.val)
      (.int (op.result a.val b.val)) = .ok (.word (op.operation a b)) := by
  have hr := Value.word_int .result (op.operation a b).result
  change Value.word .result (.int (op.result a.val b.val)) = _ at hr
  simp only [wordWithResult, Value.operatorOf, Value.operator?, Operator.ofKind?, Option.bind_some,
    Value.word_int, hr, Except.bind, bind]
  exact dif_pos rfl

theorem residueWithResult_int (op : ResidueOp) (a b m : Word) :
    residueWithResult (.operator (.residue op)) (.int a.val) (.int b.val) (.int m.val)
      (.int (op.result a.val b.val m.val)) = .ok (.residue (op.operation a b m)) := by
  have hr := Value.word_int .result (op.operation a b m).result
  change Value.word .result (.int (op.result a.val b.val m.val)) = _ at hr
  simp only [residueWithResult, Value.operatorOf, Value.operator?, Operator.ofKind?,
    Option.bind_some, Value.word_int, hr, Except.bind, bind]
  exact dif_pos rfl

/-- Building an operation from words is never refused. -/
theorem ofWords_int (op : WordOp) (a b : Word) :
    ofWords (.operator (.word op)) (.int a.val) (.int b.val) = .ok (.word (op.operation a b)) := by
  simp only [ofWords, Value.operatorOf, Value.operator?, Operator.ofKind?, Option.bind_some,
    Value.word_int, Except.bind, bind]
  exact wordWithResult_int op a b

theorem ofResidue_int (op : ResidueOp) (a b m : Word) :
    ofResidue (.operator (.residue op)) (.int a.val) (.int b.val) (.int m.val) =
      .ok (.residue (op.operation a b m)) := by
  simp only [ofResidue, Value.operatorOf, Value.operator?, Operator.ofKind?, Option.bind_some,
    Value.word_int, Except.bind, bind]
  exact residueWithResult_int op a b m

/-- Recording ends in this window, of which an operator of one row fills the first only. -/
structure Records (o : Operation) (v : Window) : Prop where
  run : o.record.on (start o.operator) = (.ok (), v)
  next : o.operator.isTwoRow = false → v.next = .zero

namespace Records
variable {o : Operation} {v : Window}

theorem rows (h : o.Records v) :
    o.rows = .ok ⟨v.row, if o.operator.isTwoRow then some v.next else none⟩ := by
  rw [Operation.rows, h.run]

theorem window (h : o.Records v) :
    (⟨v.row, if o.operator.isTwoRow then some v.next else none⟩ : Rows).window = v := by
  by_cases htwo : o.operator.isTwoRow = true
  · rw [if_pos htwo]
    rfl
  · rw [if_neg htwo, Rows.window, Option.getD_none, ← h.next (Bool.eq_false_of_not_eq_true htwo)]

end Records
end Operation

/-! Operators that add up. -/

namespace WordOp

/-- Addition, subtraction and the comparisons, all of which are recorded as a sum. -/
def Adds (op : WordOp) : Prop := op = .add ∨ op = .sub ∨ op = .lt ∨ op = .gt

instance (op : WordOp) : Decidable op.Adds := inferInstanceAs (Decidable (_ ∨ _ ∨ _ ∨ _))

theorem exists_terms {op : WordOp} (h : op.Adds) (a b : ℤ) :
    ∃ t, Chain.terms? a b op = some t := by
  rcases h with rfl | rfl | rfl | rfl <;> exact ⟨_, rfl⟩

theorem output_of_terms {op : WordOp} {a b : ℤ} {t : Chain.Terms}
    (h : Chain.terms? a b op = some t) : t.output = op.result a b := by
  cases op <;> cases h <;> rfl

theorem on_record_of_terms {op : WordOp} {a b : Word} {t : Chain.Terms} (w : Window)
    (h : Chain.terms? a.val b.val op = some t) :
    (Operation.word (op.operation a b)).record.on w =
      (.ok (), ⟨Chain.filled w.row a.val b.val t, w.next⟩) := by
  have hrun := Chain.on_record w (Fits.word a) (Fits.word b) h
  cases op <;> cases h
  case add | sub | lt | gt => exact hrun

theorem records_of_terms {op : WordOp} {a b : Word} {t : Chain.Terms}
    (h : Chain.terms? a.val b.val op = some t) :
    (Operation.word (op.operation a b)).Records
      ⟨Chain.filled (Operation.start (.word op)).row a.val b.val t, .zero⟩ :=
  ⟨on_record_of_terms _ h, fun _ => rfl⟩

end WordOp

/-! Operators that multiply. -/

namespace WordOp

/-- Multiplication, and the shift that multiplies by a power of two. -/
def Multiplies (op : WordOp) : Prop := op = .mul ∨ op = .shl

instance (op : WordOp) : Decidable op.Multiplies := inferInstanceAs (Decidable (_ ∨ _))

def leftRegister : WordOp → Register
  | shl => Layout.operand1
  | _ => Layout.operand0

def rightRegister : WordOp → Register
  | shl => Layout.operand2
  | _ => Layout.operand1

/-- The row that an operator which multiplies leaves. -/
def multiplied (op : WordOp) (r : Row) (a b : Word) : Row :=
  match op with
  | shl => Product.filled (Shift.operands r a.val b.val) b.val (Shift.factor a.val)
  | _ => Product.filled ((r.write Layout.operand0 (cells 2 a.val)).write Layout.operand1
      (cells 2 b.val)) a.val b.val

theorem on_record_of_multiplies {op : WordOp} (w : Window) (h : op.Multiplies) (a b : Word) :
    (Operation.word (op.operation a b)).record.on w =
      (.ok (), ⟨op.multiplied w.row a b, w.next⟩) := by
  rcases h with rfl | rfl
  · exact Product.on_record w (Fits.word a) (Fits.word b)
  · have hleft := Shift.on_record_left w a.property.1 (Fits.word a) (Fits.word b)
    rw [← result_shl] at hleft
    exact hleft

theorem records_of_multiplies {op : WordOp} (h : op.Multiplies) (a b : Word) :
    (Operation.word (op.operation a b)).Records
      ⟨op.multiplied (Operation.start (.word op)).row a b, .zero⟩ :=
  ⟨on_record_of_multiplies _ h a b, fun _ => rfl⟩

end WordOp

/-! Operators that divide. -/

namespace WordOp

/-- Division, its remainder, and the shift that divides by a power of two. -/
def Divides (op : WordOp) : Prop := op = .div ∨ op = .mod ∨ op = .shr

instance (op : WordOp) : Decidable op.Divides := inferInstanceAs (Decidable (_ ∨ _ ∨ _))

def dividendRegister : WordOp → Register
  | shr => Layout.operand1
  | _ => Layout.operand0

def divisorRegister : WordOp → Register
  | shr => Layout.operand2
  | _ => Layout.operand1

/-- The register that the output repeats. -/
def selectedRegister : WordOp → Register
  | mod => Layout.remainder
  | _ => Layout.quotient

def dividend : WordOp → ℤ → ℤ → ℤ
  | shr, _, z => z
  | _, a, _ => a

def divisor : WordOp → ℤ → ℤ → ℤ
  | shr, amount, _ => Shift.factor amount
  | _, _, b => b

variable {op : WordOp}

theorem dividend_bounds (op : WordOp) (a b : Word) :
    0 ≤ op.dividend a.val b.val ∧ op.dividend a.val b.val < wordLimit := by
  cases op
  case shr => exact b.property
  all_goals exact a.property

theorem divisor_bounds (op : WordOp) (a b : Word) :
    0 ≤ op.divisor a.val b.val ∧ op.divisor a.val b.val < wordLimit := by
  cases op
  case shr => exact Shift.factor_bounds a.val
  all_goals exact b.property

theorem fits_dividend (op : WordOp) (a b : Word) : Fits 2 (op.dividend a.val b.val) :=
  fits_of_bounds (op.dividend_bounds a b).1 (op.dividend_bounds a b).2

theorem fits_divisor (op : WordOp) (a b : Word) : Fits 2 (op.divisor a.val b.val) :=
  fits_of_bounds (op.divisor_bounds a b).1 (op.divisor_bounds a b).2

theorem select_of_divides (h : op.Divides) (a b : Word) :
    Division.select? (quotient (op.dividend a.val b.val) (op.divisor a.val b.val))
      (remainder (op.dividend a.val b.val) (op.divisor a.val b.val)) op =
        some (op.result a.val b.val) := by
  rcases h with rfl | rfl | rfl
  · rfl
  · rfl
  · rw [result_shr]
    rfl

/-- The registers of the operands, as the gadget of an operator that divides fills them. -/
def operands (op : WordOp) (r : Row) (a b : ℤ) : Row :=
  match op with
  | shr => Shift.operands r a b
  | _ => (r.write Layout.operand0 (cells 2 a)).write Layout.operand1 (cells 2 b)

theorem limbs_operands (op : WordOp) (r : Row) (a b : ℤ) {register : Register}
    (h : ∀ c ∈ register, c ∉ Layout.operand0 ∧ c ∉ Layout.operand1 ∧ c ∉ Layout.operand2) :
    (op.operands r a b).limbs register = r.limbs register := by
  have h0 : ∀ c ∈ register, c ∉ Layout.operand0 := fun c hc => (h c hc).1
  have h1 : ∀ c ∈ register, c ∉ Layout.operand1 := fun c hc => (h c hc).2.1
  have h2 : ∀ c ∈ register, c ∉ Layout.operand2 := fun c hc => (h c hc).2.2
  cases op <;>
    simp only [operands, Shift.operands, Row.limbs_write_of_disjoint _ _ h0,
      Row.limbs_write_of_disjoint _ _ h1, Row.limbs_write_of_disjoint _ _ h2]

theorem limbs_dividendRegister (op : WordOp) (r : Row) (a b : ℤ) :
    (op.operands r a b).limbs op.dividendRegister = cells 2 (op.dividend a b) := by
  cases op <;>
    simp (disch := decide) only [operands, dividendRegister, dividend, Shift.operands,
      Row.limbs_write_of_disjoint, Row.limbs_write_cells]

theorem limbs_divisorRegister (op : WordOp) (r : Row) (a b : ℤ) :
    (op.operands r a b).limbs op.divisorRegister = cells 2 (op.divisor a b) := by
  cases op <;>
    simp (disch := decide) only [operands, divisorRegister, divisor, Shift.operands,
      Row.limbs_write_cells]

/-- The window that an operator which divides leaves. -/
def divided (op : WordOp) (w : Window) (a b : Word) : Window :=
  Division.filled ⟨op.operands w.row a.val b.val, w.next⟩ (op.dividend a.val b.val)
    (op.divisor a.val b.val) (op.result a.val b.val)

theorem on_record_of_divides (w : Window) (h : op.Divides) (a b : Word) :
    (Operation.word (op.operation a b)).record.on w = (.ok (), op.divided w a b) := by
  have hselect := select_of_divides h a b
  rcases h with rfl | rfl | rfl
  · exact Division.on_record w (Fits.word a) b.property.1 (Fits.word b) hselect
  · exact Division.on_record w (Fits.word a) b.property.1 (Fits.word b) hselect
  · have hright := Shift.on_record_right w a.property.1 (Fits.word a) (Fits.word b)
    rw [← result_shr] at hright
    exact hright

theorem records_of_divides (h : op.Divides) (a b : Word) :
    (Operation.word (op.operation a b)).Records
      (op.divided (Operation.start (.word op)) a b) := by
  refine ⟨on_record_of_divides _ h a b, ?_⟩
  rcases h with rfl | rfl | rfl <;> exact fun hone => Bool.noConfusion hone

end WordOp

/-- An operator on two words is recorded as a sum, as a product or as a division. -/
theorem WordOp.terms_or_multiplies_or_divides (op : WordOp) (a b : ℤ) :
    (∃ t, Chain.terms? a b op = some t) ∨ op.Multiplies ∨ op.Divides := by
  cases op
  case add | sub | lt | gt => exact .inl (exists_terms (by decide) a b)
  case mul | shl => exact .inr (.inl (by decide))
  case div | mod | shr => exact .inr (.inr (by decide))

theorem ResidueOp.on_record (op : ResidueOp) (w : Window) (a b m : Word) :
    (Operation.residue (op.operation a b m)).record.on w =
      (.ok (), Residue.filled w op a.val b.val m.val) :=
  Residue.on_record op w (Fits.word a) (Fits.word b) m.property.1 (Fits.word m)

theorem ResidueOp.records (op : ResidueOp) (a b m : Word) :
    (Operation.residue (op.operation a b m)).Records
      (Residue.filled (Operation.start (.residue op)) op a.val b.val m.val) where
  run := op.on_record _ a b m
  next hone := Bool.noConfusion hone

end WordTrace

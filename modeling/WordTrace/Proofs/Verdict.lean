import WordTrace.Proofs.Carry
import WordTrace.Proofs.Row

/-! # What the table demands of a window

On a window that selects one operator the identities of all other operators vanish, and the table
accepts exactly when the registers of that operator stand in the relation stated here.
-/

namespace WordTrace

/-- One selector is set, that of the operator. -/
structure Row.Selects (r : Row) (op : Operator) : Prop where
  word : ∀ o : WordOp, r.get o.selector = if op = .word o then 1 else 0
  residue : ∀ o : ResidueOp, r.get o.selector = if op = .residue o then 1 else 0

theorem Row.Selects.of_get {r : Row} {op : Operator}
    (h : ∀ o : Operator, r.get o.selector = if op = o then 1 else 0) : r.Selects op := by
  constructor
  · intro o
    exact h (.word o)
  · intro o
    exact h (.residue o)

theorem Row.Selects.get {r : Row} {op : Operator} (h : r.Selects op) (o : Operator) :
    r.get o.selector = if op = o then 1 else 0 := by
  cases o with
  | word o => exact h.word o
  | residue o => exact h.residue o

/-- No selector is set. -/
def Row.SelectsNone (r : Row) : Prop := ∀ c ∈ Layout.selectors, r.get c = 0

instance (r : Row) : Decidable r.SelectsNone :=
  inferInstanceAs (Decidable (∀ c ∈ Layout.selectors, r.get c = 0))

namespace Selector

theorem mem_selectors (op : Operator) : op.selector ∈ Layout.selectors := by
  rcases op with op | op <;> cases op <;> decide

theorem exists_operator {c : Column} (h : c ∈ Layout.selectors) :
    ∃ op : Operator, op.selector = c := by
  have hall : ∀ d ∈ Layout.selectors,
      d ∈ (Operator.ofKind .word ++ Operator.ofKind .residue).map Operator.selector := by decide
  obtain ⟨op, -, hop⟩ := List.mem_map.mp (hall c h)
  exact ⟨op, hop⟩

theorem selector_injective : Function.Injective Operator.selector := by
  intro o p h
  rcases o with o | o <;> rcases p with p | p <;> cases o <;> cases p <;>
    first | rfl | exact absurd h (by decide)

theorem val_foldl_add {xs : List Felt} {acc : Felt} (hx : ∀ x ∈ xs, x.val ≤ 1)
    (hacc : acc.val + xs.length < prime) :
    (xs.foldl (· + ·) acc).val = acc.val + (xs.map Felt.val).sum := by
  induction xs generalizing acc with
  | nil => simp
  | cons x xs ih =>
    have hx1 := hx x (List.mem_cons_self ..)
    rw [List.length_cons] at hacc
    have hadd : (acc + x).val = acc.val + x.val := by
      rw [Felt.val_add, Nat.mod_eq_of_lt (by omega)]
    rw [List.foldl_cons, ih (fun y hy => hx y (List.mem_cons_of_mem x hy)) (by omega), hadd,
      List.map_cons, List.sum_cons, Nat.add_assoc]

/-- A sum of at most one has room for one place only. -/
theorem eq_zero_of_sum_le_one {α : Type} {f : α → ℕ} {xs : List α} {a b : α}
    (hsum : (xs.map f).sum ≤ 1) (ha : a ∈ xs) (hb : b ∈ xs) (hab : a ≠ b) (hone : f a = 1) :
    f b = 0 := by
  induction xs with
  | nil => exact absurd ha List.not_mem_nil
  | cons x xs ih =>
    rw [List.map_cons, List.sum_cons] at hsum
    have hle {c : α} (hc : c ∈ xs) : f c ≤ (xs.map f).sum :=
      List.single_le_sum (fun _ _ => Nat.zero_le _) _ (List.mem_map_of_mem hc)
    rcases List.mem_cons.mp ha with rfl | ha' <;> rcases List.mem_cons.mp hb with rfl | hb'
    · exact absurd rfl hab
    · have := hle hb'
      omega
    · have := hle ha'
      omega
    · exact ih (by omega) ha' hb'

theorem val_le_one_of_booleanity {x : Felt} (h : Felt.booleanity x = 0) : x.val ≤ 1 := by
  rcases (Felt.booleanity_eq_zero_iff x).mp h with rfl | rfl <;> decide

/-- Once a selector is one, truth values with a truth value as sum leave all others zero. -/
theorem selects_of_vanish {w : Window} {op : Operator} (h : Vanish (identities w))
    (hop : w.row.get op.selector = 1) : w.row.Selects op := by
  obtain ⟨hbits, hsum⟩ := vanish_append.mp h
  have hbool : ∀ x ∈ w.row.limbs Layout.selectors, x.val ≤ 1 := by
    intro x hx
    exact val_le_one_of_booleanity (hbits _ (List.mem_map_of_mem hx))
  have htotal := val_le_one_of_booleanity (vanish_cons.mp hsum).1
  have hsmall : (0 : Felt).val + (w.row.limbs Layout.selectors).length < prime := by
    rw [Row.length_limbs]
    decide
  rw [val_foldl_add hbool hsmall, Felt.val_zero, zero_add, Row.limbs, List.map_map] at htotal
  apply Row.Selects.of_get
  intro o
  by_cases heq : op = o
  · rw [if_pos heq, ← heq, hop]
  · have hsel : op.selector ≠ o.selector := fun he => heq (selector_injective he)
    have hzero := eq_zero_of_sum_le_one htotal (mem_selectors op) (mem_selectors o) hsel
      (congrArg Felt.val hop)
    rw [if_neg heq]
    exact Felt.ext hzero

theorem vanish_of_selects {w : Window} {op : Operator} (h : w.row.Selects op) :
    Vanish (identities w) := by
  have hcells : w.row.limbs Layout.selectors =
      WordOp.all.map (fun o => if op = .word o then 1 else 0) ++
        ResidueOp.all.map (fun o => if op = .residue o then 1 else 0) := by
    simp only [← h.word, ← h.residue]
    rfl
  rw [identities, hcells]
  rcases op with op | op <;> cases op <;> decide +kernel

theorem vanish_of_selectsNone {w : Window} (h : w.row.SelectsNone) : Vanish (identities w) := by
  have hcells : w.row.limbs Layout.selectors = List.replicate Layout.selectors.length 0 :=
    List.map_eq_replicate_iff.mpr h
  rw [identities, hcells]
  decide +kernel

end Selector

theorem Row.SelectsNone.get {r : Row} (h : r.SelectsNone) (op : Operator) :
    r.get op.selector = 0 := h _ (Selector.mem_selectors op)

namespace Chain

/-- The registers add up with carries of zero or one. -/
structure Holds (r : Row) (x y z : Register) : Prop where
  sum : Vanish (Carry.residuals
    (LimbPoly.difference (r.limbs z) (LimbPoly.sum (r.limbs x) (r.limbs y)))
    (r.limbs Layout.carry))
  binary : ∀ c ∈ r.limbs Layout.carry, Felt.booleanity c = 0

theorem holds_iff {r : Row} {x y z : Register} : Holds r x y z ↔
    Vanish (Carry.residuals (LimbPoly.difference (r.limbs z)
      (LimbPoly.sum (r.limbs x) (r.limbs y))) (r.limbs Layout.carry)) ∧
    ∀ c ∈ r.limbs Layout.carry, Felt.booleanity c = 0 :=
  ⟨fun h => ⟨h.sum, h.binary⟩, fun h => ⟨h.1, h.2⟩⟩

/-- The output of a comparison is the last carry. -/
structure Compares (r : Row) : Prop where
  low : r.get Layout.outputLow = r.get Layout.topCarry
  high : r.get Layout.outputHigh = 0

end Chain

/-- The output is the product of the factors in the two lowest limbs. -/
def Product.Holds (r : Row) (left right : Register) : Prop :=
  Vanish (Carry.residuals (LimbPoly.difference (r.limbs Layout.output)
    ((LimbPoly.product (r.limbs left) (r.limbs right)).take 2)) (r.limbs Layout.carry))

namespace Remainder
variable (next : Row) (modulus remainder quotient p : List Felt)

/-- A flagged modulus is zero and leaves neither quotient nor remainder. -/
structure Degenerate : Prop where
  flag : next.get Layout.modulusIsZero = 1
  modulus : Limb.valueFelt modulus = 0
  quotient : Vanish quotient
  remainder : Vanish remainder

/-- Any other modulus is inverted, divides up to the remainder and exceeds it by the gap. -/
structure Proper : Prop where
  flag : next.get Layout.modulusIsZero = 0
  inverse : Limb.valueFelt modulus * next.get Layout.modulusInverse = 1
  carries : Vanish (Carry.residuals p ((next.limbs Layout.productCarry).take (p.length - 1)))
  gap : Limb.valueFelt modulus - Limb.valueFelt remainder - 1 =
    Limb.valueFelt (next.limbs Layout.gap)

theorem vanish_identities_iff :
    Vanish (identities next modulus remainder quotient p) ↔
      Degenerate next modulus remainder quotient ∨ Proper next modulus remainder p := by
  constructor
  · intro h
    simp only [identities, vanish_append, vanish_cons, vanish_nil, vanish_map_mul, and_true] at h
    obtain ⟨⟨⟨⟨⟨hflag, hinv, hmod⟩, hcarry⟩, hgap⟩, hq⟩, hr⟩ := h
    rcases (Felt.booleanity_eq_zero_iff _).mp hflag with hz | hz
    · rw [hz] at hinv hcarry hgap
      simp only [sub_zero, one_ne_zero, false_or, one_mul, sub_eq_zero] at hinv hcarry hgap
      exact .inr ⟨hz, hinv, hcarry, hgap⟩
    · rw [hz] at hmod hq hr
      simp only [one_mul, one_ne_zero, false_or] at hmod hq hr
      exact .inl ⟨hz, hmod, hq, hr⟩
  · rintro (⟨hz, hmod, hq, hr⟩ | ⟨hz, hinv, hcarry, hgap⟩)
    · simp only [identities, vanish_append, vanish_cons, vanish_nil, vanish_map_mul, hz, hmod,
        Felt.booleanity]
      simp [hq, hr]
    · simp only [identities, vanish_append, vanish_cons, vanish_nil, vanish_map_mul, hz, hinv,
        hgap, Felt.booleanity]
      simp [hcarry]

end Remainder

/-- Dividend, divisor, quotient and remainder agree, and the output repeats one of the latter. -/
structure Division.Holds (w : Window) (dividend divisor selected : Register) : Prop where
  division :
    Remainder.Degenerate w.next (w.row.limbs divisor) (w.row.limbs Layout.remainder)
        (w.row.limbs Layout.quotient) ∨
      Remainder.Proper w.next (w.row.limbs divisor) (w.row.limbs Layout.remainder)
        (Division.polynomial (w.row.limbs dividend) (w.row.limbs divisor)
          (w.row.limbs Layout.quotient) (w.row.limbs Layout.remainder))
  output : w.row.limbs Layout.output = w.row.limbs selected

/-- Operands, modulus, quotient and output agree. -/
def Residue.Holds (w : Window) (op : ResidueOp) : Prop :=
  Remainder.Degenerate w.next (w.row.limbs Layout.operand2) (w.row.limbs Layout.output)
      (w.row.limbs Layout.wideQuotient) ∨
    Remainder.Proper w.next (w.row.limbs Layout.operand2) (w.row.limbs Layout.output)
      (Residue.polynomial op (w.row.limbs Layout.operand0) (w.row.limbs Layout.operand1)
        (w.row.limbs Layout.operand2) (w.row.limbs Layout.output)
        (w.row.limbs Layout.wideQuotient))

/-- The relation between the registers of an operator. -/
def Operator.Holds (w : Window) : Operator → Prop
  | .word .add => Chain.Holds w.row Layout.operand0 Layout.operand1 Layout.output
  | .word .sub => Chain.Holds w.row Layout.output Layout.operand1 Layout.operand0
  | .word .lt =>
    Chain.Holds w.row Layout.wrapped Layout.operand1 Layout.operand0 ∧ Chain.Compares w.row
  | .word .gt =>
    Chain.Holds w.row Layout.wrapped Layout.operand0 Layout.operand1 ∧ Chain.Compares w.row
  | .word .mul => Product.Holds w.row Layout.operand0 Layout.operand1
  | .word .shl => Product.Holds w.row Layout.operand1 Layout.operand2
  | .word .div => Division.Holds w Layout.operand0 Layout.operand1 Layout.quotient
  | .word .mod => Division.Holds w Layout.operand0 Layout.operand1 Layout.remainder
  | .word .shr => Division.Holds w Layout.operand1 Layout.operand2 Layout.quotient
  | .residue op => Residue.Holds w op

theorem vanish_difference_iff {a b : List Felt} (h : a.length = b.length) :
    Vanish (LimbPoly.difference a b) ↔ a = b := by
  induction a generalizing b with
  | nil => simp [List.eq_nil_of_length_eq_zero h.symm]
  | cons x a ih =>
    obtain ⟨y, b, rfl⟩ := List.exists_cons_of_length_eq_add_one h.symm
    rw [LimbPoly.difference, vanish_cons, ih (by simpa using h), sub_eq_zero, List.cons.injEq]

namespace Table
variable {w : Window} {op : Operator}

theorem accepts_iff (w : Window) : accepts w = true ↔ Vanish (identities w) := by
  simp [accepts, Vanish]

theorem accepts_iff_vanish (w : Window) :
    accepts w = true ↔ Vanish (Selector.identities w) ∧ Vanish (Chain.identities w) ∧
      Vanish (Product.identities w) ∧ Vanish (Division.identities w) ∧
      Vanish (Residue.identities w) := by
  rw [accepts_iff, identities, vanish_append, vanish_append, vanish_append, vanish_append,
    and_assoc, and_assoc, and_assoc]

/-! The identities of each gadget, with the selectors as they stand. -/

theorem vanish_chain_iff (w : Window) : Vanish (Chain.identities w) ↔
    (∀ l ∈ Chain.links w.row, l.selector = 0 ∨ Vanish (Carry.residuals
      (LimbPoly.difference l.z (LimbPoly.sum l.x l.y)) (w.row.limbs Layout.carry))) ∧
    (w.row.get (WordOp.selector .add) + w.row.get (WordOp.selector .sub) +
        w.row.get (WordOp.selector .lt) + w.row.get (WordOp.selector .gt) = 0 ∨
      ∀ c ∈ w.row.limbs Layout.carry, Felt.booleanity c = 0) ∧
    (w.row.get (WordOp.selector .lt) + w.row.get (WordOp.selector .gt) = 0 ∨
      Chain.Compares w.row) := by
  have hlinks : Vanish ((Chain.links w.row).flatMap (·.identities (w.row.limbs Layout.carry))) ↔
      ∀ l ∈ Chain.links w.row, l.selector = 0 ∨ Vanish (Carry.residuals
        (LimbPoly.difference l.z (LimbPoly.sum l.x l.y)) (w.row.limbs Layout.carry)) := by
    simp only [Vanish, List.forall_mem_flatMap]
    exact forall₂_congr fun l _ => vanish_map_mul
  have hcompares : Chain.Compares w.row ↔
      w.row.get Layout.outputLow - w.row.get Layout.topCarry = 0 ∧
        w.row.get Layout.outputHigh = 0 := by
    rw [sub_eq_zero]
    exact ⟨fun h => ⟨h.low, h.high⟩, fun h => ⟨h.1, h.2⟩⟩
  simp only [Chain.identities, vanish_append, hlinks, vanish_map_mul_comp, vanish_cons, vanish_nil,
    and_true, mul_eq_zero, ← or_and_left, hcompares, and_assoc]

theorem vanish_product_iff (w : Window) : Vanish (Product.identities w) ↔
    (w.row.get (WordOp.selector .mul) = 0 ∨
      Product.Holds w.row Layout.operand0 Layout.operand1) ∧
    (w.row.get (WordOp.selector .shl) = 0 ∨
      Product.Holds w.row Layout.operand1 Layout.operand2) := by
  simp only [Product.identities, Product.identitiesOf, vanish_append, vanish_map_mul,
    Product.Holds]

theorem vanish_divisionOf_iff (w : Window) (op : WordOp) {dividend divisor selected : Register}
    (h : selected.length = 2) :
    Vanish (Division.identitiesOf w op dividend divisor selected) ↔
      w.row.get op.selector = 0 ∨ Division.Holds w dividend divisor selected := by
  have hlen : (w.row.limbs Layout.output).length = (w.row.limbs selected).length := by
    rw [Row.length_limbs, Row.length_limbs, h]
    rfl
  rw [Division.identitiesOf, vanish_map_mul, vanish_append, Remainder.vanish_identities_iff,
    vanish_difference_iff hlen]
  exact or_congr_right ⟨fun hd => ⟨hd.1, hd.2⟩, fun hd => ⟨hd.1, hd.2⟩⟩

theorem vanish_division_iff (w : Window) : Vanish (Division.identities w) ↔
    (w.row.get (WordOp.selector .div) = 0 ∨
      Division.Holds w Layout.operand0 Layout.operand1 Layout.quotient) ∧
    (w.row.get (WordOp.selector .mod) = 0 ∨
      Division.Holds w Layout.operand0 Layout.operand1 Layout.remainder) ∧
    (w.row.get (WordOp.selector .shr) = 0 ∨
      Division.Holds w Layout.operand1 Layout.operand2 Layout.quotient) := by
  rw [Division.identities, vanish_append, vanish_append, vanish_divisionOf_iff w .div rfl,
    vanish_divisionOf_iff w .mod rfl, vanish_divisionOf_iff w .shr rfl, and_assoc]

theorem vanish_residue_iff (w : Window) : Vanish (Residue.identities w) ↔
    ∀ o : ResidueOp, w.row.get o.selector = 0 ∨ Residue.Holds w o := by
  have hof (o : ResidueOp) : Vanish (Residue.identitiesOf w o) ↔
      w.row.get o.selector = 0 ∨ Residue.Holds w o := by
    rw [Residue.identitiesOf, vanish_map_mul, Remainder.vanish_identities_iff]
    rfl
  simp only [← hof, Residue.identities, Vanish, List.forall_mem_flatMap]
  exact ⟨fun h o => h o (by cases o <;> decide), fun h o _ => h o⟩

/-! The identities of a window with one selector, and of one with none. -/

theorem accepts_iff_of_selects (h : w.row.Selects op) : accepts w = true ↔ op.Holds w := by
  rw [accepts_iff_vanish, vanish_chain_iff, vanish_product_iff, vanish_division_iff,
    vanish_residue_iff]
  have hsel := Selector.vanish_of_selects h
  rcases op with op | op
  · cases op <;>
      simp [hsel, h.word, h.residue, Chain.links, Operator.Holds, Chain.holds_iff, and_assoc]
  · have hother (o : ResidueOp) : w.row.get o.selector = 0 ∨ Residue.Holds w o ↔
        (op = o → Residue.Holds w o) := by
      simp [h.residue, imp_iff_not_or]
    simp [hsel, h.word, hother, Chain.links, Operator.Holds]

theorem accepts_of_selectsNone (h : w.row.SelectsNone) : accepts w = true := by
  have hword (o : WordOp) : w.row.get o.selector = 0 := h.get (.word o)
  have hresidue (o : ResidueOp) : w.row.get o.selector = 0 := h.get (.residue o)
  rw [accepts_iff_vanish, vanish_chain_iff, vanish_product_iff, vanish_division_iff,
    vanish_residue_iff]
  simp [Selector.vanish_of_selectsNone h, hword, hresidue, Chain.links]

/-- Selecting an operator and being accepted is to keep the operator's relation. -/
theorem holds_of_accepts (h : accepts w = true) (hop : w.row.get op.selector = 1) :
    w.row.Selects op ∧ op.Holds w := by
  have hsel := Selector.selects_of_vanish ((accepts_iff_vanish w).mp h).1 hop
  exact ⟨hsel, (accepts_iff_of_selects hsel).mp h⟩

end Table
end WordTrace

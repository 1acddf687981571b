import WordTrace.Proofs.Completeness

/-! # The identities of a product leave its output free

Whatever stands in the registers of the factors and of the output, the two carries of a truncated
product can make up for it, in one way only: the base is invertible in the field. It is the range of
the carries alone that ties the output to the factors.
-/

namespace WordTrace

namespace Product
variable {left right : Register}

/-- What carries have to settle: output less product, in the two lowest limbs. -/
def imbalance (r : Row) (left right : Register) : List Felt :=
  LimbPoly.difference (r.limbs Layout.output)
    ((LimbPoly.product (r.limbs left) (r.limbs right)).take 2)

theorem length_imbalance (r : Row) (hl : left.length = 2) (hr : right.length = 2) :
    (imbalance r left right).length = 2 := by
  have hproduct := LimbPoly.length_product (a := r.limbs left) (b := r.limbs right)
    (List.ne_nil_of_length_pos (by simp [hl])) (List.ne_nil_of_length_pos (by simp [hr]))
  rw [imbalance, LimbPoly.length_difference, List.length_take, hproduct, Row.length_limbs,
    Row.length_limbs, Row.length_limbs, hl, hr]
  rfl

/-- The carries written have to be those that settle the limbs from below. -/
theorem holds_write_carry_iff (r : Row) (hl : left.length = 2) (hr : right.length = 2)
    (hleft : ∀ c ∈ left, c ∉ Layout.carry) (hright : ∀ c ∈ right, c ∉ Layout.carry) (x y : Felt) :
    Holds (r.write Layout.carry [x, y]) left right ↔
      [x, y] = Carry.solve 0 (imbalance r left right) := by
  have hlen : [x, y].length = (imbalance r left right).length := (length_imbalance r hl hr).symm
  have hout : ∀ c ∈ Layout.output, c ∉ Layout.carry := by decide
  rw [Holds, Row.limbs_write_of_disjoint r _ hout, Row.limbs_write_of_disjoint r _ hleft,
    Row.limbs_write_of_disjoint r _ hright, Row.limbs_write_self r (by decide) rfl]
  exact Carry.vanish_iff_eq_solve hlen

theorem existsUnique_carries (r : Row) (hl : left.length = 2) (hr : right.length = 2)
    (hleft : ∀ c ∈ left, c ∉ Layout.carry) (hright : ∀ c ∈ right, c ∉ Layout.carry) :
    ∃! c : Felt × Felt, Holds (r.write Layout.carry [c.1, c.2]) left right := by
  obtain ⟨x, y, hsolve⟩ : ∃ x y, Carry.solve 0 (imbalance r left right) = [x, y] :=
    List.length_eq_two.mp ((Carry.length_solve _ _).trans (length_imbalance r hl hr))
  refine ⟨(x, y), ?_, ?_⟩
  · exact (holds_write_carry_iff r hl hr hleft hright x y).mpr hsolve.symm
  · rintro ⟨x', y'⟩ h
    have heq := (holds_write_carry_iff r hl hr hleft hright x' y').mp h
    rw [hsolve] at heq
    obtain ⟨rfl, htail⟩ := List.cons.inj heq
    rw [(List.cons.inj htail).1]

end Product

namespace WordOp
variable {op : WordOp} {w : Window}

/-- Of all pairs of carries one makes the table accept. -/
theorem existsUnique_accepted_carries (h : op.Multiplies) (hselects : w.row.Selects (.word op)) :
    ∃! c : Felt × Felt,
      Table.accepts ⟨w.row.write Layout.carry [c.1, c.2], w.next⟩ = true := by
  have hdisjoint : ∀ c ∈ Layout.selectors, c ∉ Layout.carry := by decide
  have haccepts (c : Felt × Felt) :
      Table.accepts ⟨w.row.write Layout.carry [c.1, c.2], w.next⟩ = true ↔
        Product.Holds (w.row.write Layout.carry [c.1, c.2]) op.leftRegister op.rightRegister := by
    have hkept := hselects.of_limbs (Row.limbs_write_of_disjoint w.row [c.1, c.2] hdisjoint)
    exact (Table.accepts_iff_of_selects hkept).trans (holds_iff_of_multiplies h _)
  simp only [haccepts]
  rcases h with rfl | rfl <;>
    exact Product.existsUnique_carries w.row rfl rfl (by decide) (by decide)

/-- Under an operator that multiplies, any row has one pair of carries with which the table accepts
it, and so has the row for each output that is put in the place of its own. -/
theorem product_output_free (h : op.Multiplies) (hselects : w.row.Selects (.word op)) :
    (∃! c : Felt × Felt,
      Table.accepts ⟨w.row.write Layout.carry [c.1, c.2], w.next⟩ = true) ∧
    ∀ low high : Felt, ∃! c : Felt × Felt,
      Table.accepts ⟨(w.row.write Layout.output [low, high]).write Layout.carry [c.1, c.2],
        w.next⟩ = true := by
  have hdisjoint : ∀ c ∈ Layout.selectors, c ∉ Layout.output := by decide
  refine ⟨existsUnique_accepted_carries h hselects, ?_⟩
  intro low high
  have hkept := hselects.of_limbs (Row.limbs_write_of_disjoint w.row [low, high] hdisjoint)
  exact existsUnique_accepted_carries (w := ⟨_, w.next⟩) h hkept

/-- No output is beyond reach of a row that claims two by two to be five, or of the limbs it has. -/
theorem product_output_free_five :
    let r := ((Operation.start (.word .mul)).row.write Layout.operand0 [2, 0]).write Layout.operand1
      [2, 0]
    let w : Window := ⟨r.write Layout.output [5, 0], .zero⟩
    (∃! c : Felt × Felt,
      Table.accepts ⟨w.row.write Layout.carry [c.1, c.2], w.next⟩ = true) ∧
    ∀ low high : Felt, ∃! c : Felt × Felt,
      Table.accepts ⟨(w.row.write Layout.output [low, high]).write Layout.carry [c.1, c.2],
        w.next⟩ = true :=
  product_output_free (.inl rfl) (.of_get fun o => by rcases o with o | o <;> cases o <;> decide)

end WordOp
end WordTrace

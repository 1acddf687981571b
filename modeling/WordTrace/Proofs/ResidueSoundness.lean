import WordTrace.Proofs.Operation
import WordTrace.Proofs.Remainder

/-! # Residues are bound once their carries are bounded

A modulus times a wide quotient exceeds the prime, so that the value of the polynomial in the field
says little. Limb by limb, however, bounded carries leave no room to wrap around the prime, and the
polynomial has value zero over the integers.
-/

namespace WordTrace
open Limb (InRange number)
open LimbPoly (Bounded)
open Remainder (quotient remainder)

namespace Residue

/-- The magnitude that is granted to a signed limb of the quotient. -/
def limbBound : ℕ := 65536

theorem bounded_of_inRange {xs : List Felt} (h : InRange xs) :
    Bounded limbBound (xs.map Felt.signed) := by
  intro z hz
  obtain ⟨h0, hlt⟩ := h.bounds z hz
  simp only [Limb.base, limbBound] at *
  omega

theorem bounded_of_abs_lt {k : ℕ} {xs : List Felt} (h : ∀ x ∈ xs, |x.signed| < k) :
    Bounded k (xs.map Felt.signed) := by
  intro z hz
  obtain ⟨x, hx, rfl⟩ := List.mem_map.mp hz
  have hlt := h x hx
  rw [abs_lt] at hlt
  omega

/-- The greatest coefficients are those of a product. -/
theorem bounded_opPolynomial {k : ℕ} (op : ResidueOp) {a b : List ℤ} (hk : 0 < k)
    (hla : a.length = 2) (ha : Bounded k a) (hb : Bounded k b) :
    Bounded (2 * (k * k)) (op.polynomial a b) := by
  have hsum : k + k ≤ 2 * (k * k) := by
    have hle := Nat.le_mul_of_pos_left k hk
    omega
  cases op with
  | add => exact (ha.sum hb).mono hsum
  | mul =>
    have hproduct := ha.product hb
    rwa [hla] at hproduct
  | sub => exact (ha.difference hb).mono hsum

theorem bounded_polynomial {k : ℕ} (op : ResidueOp) {a b m r q : List ℤ} (hk : 0 < k)
    (hla : a.length = 2) (hlm : m.length = 2) (ha : Bounded k a) (hb : Bounded k b)
    (hm : Bounded k m) (hr : Bounded k r) (hq : Bounded k q) :
    Bounded (2 * (k * k) + k + 2 * (k * k)) (polynomial op a b m r q) := by
  have hproduct := hm.product hq
  rw [hlm] at hproduct
  exact (hproduct.sum hr).difference (bounded_opPolynomial op hk hla ha hb)

variable {next : Row} {a b m r q : List Felt}

/-- No coefficient wraps around the prime, and the equation holds over the integers. -/
theorem mul_add_of_proper {op : ResidueOp}
    (h : Remainder.Proper next m r (polynomial op a b m r q)) (hla : a.length = 2)
    (hlb : b.length = 2) (hlm : m.length = 2) (hlr : r.length = 2) (hlq : q.length = 4)
    (ha : InRange a) (hb : InRange b) (hm : InRange m) (hr : InRange r)
    (hq : ∀ x ∈ q, |x.signed| < limbBound)
    (hc : ∀ c ∈ next.limbs Layout.productCarry, |c.signed| < Carry.bound) :
    number m * number q + number r = op.exact (number a) (number b) := by
  have hlen := length_polynomial op hla hlb hlm hlr hlq
  have hpoly : polynomial op a b m r q = (polynomial op (a.map Felt.signed) (b.map Felt.signed)
      (m.map Felt.signed) (r.map Felt.signed) (q.map Felt.signed)).map Felt.ofInt := by
    rw [← polynomial_map_ofInt]
    simp only [Limb.map_ofInt_signed]
  have hcoefficients := bounded_polynomial op (by decide) ((List.length_map _).trans hla)
    ((List.length_map _).trans hlm) (bounded_of_inRange ha) (bounded_of_inRange hb)
    (bounded_of_inRange hm) (bounded_of_inRange hr) (bounded_of_abs_lt hq)
  have hcarries := h.carries
  have htake : (next.limbs Layout.productCarry).take ((polynomial op a b m r q).length - 1) =
      next.limbs Layout.productCarry := by
    rw [hlen]
    rfl
  rw [htake, hpoly, ← Limb.map_ofInt_signed (next.limbs Layout.productCarry)] at hcarries
  rw [hpoly, List.length_map] at hlen
  have hvalue := @Carry.value_eq_of_bounded _ Carry.bound (by decide) 0 _ _ (by
    rw [hlen, List.length_map, Row.length_limbs]
    rfl) hcoefficients (bounded_of_abs_lt hc) (Nat.zero_le _) hcarries
  rw [value_polynomial, sub_eq_zero] at hvalue
  exact hvalue

end Residue

namespace ResidueOp
variable {op : ResidueOp} {w : Window}

/-- Operands, output and gap consist of limbs; quotient and carries are of bounded magnitude. -/
structure RangeChecked (w : Window) : Prop where
  first : InRange (w.row.limbs Layout.operand0)
  second : InRange (w.row.limbs Layout.operand1)
  modulus : InRange (w.row.limbs Layout.operand2)
  output : InRange (w.row.limbs Layout.output)
  gap : InRange (w.next.limbs Layout.gap)
  quotient : ∀ x ∈ w.row.limbs Layout.wideQuotient, |x.signed| < Residue.limbBound
  carries : ∀ c ∈ w.next.limbs Layout.productCarry, |c.signed| < Carry.bound

instance (w : Window) : Decidable (RangeChecked w) :=
  decidable_of_iff (InRange (w.row.limbs Layout.operand0) ∧ InRange (w.row.limbs Layout.operand1) ∧
      InRange (w.row.limbs Layout.operand2) ∧ InRange (w.row.limbs Layout.output) ∧
      InRange (w.next.limbs Layout.gap) ∧
      (∀ x ∈ w.row.limbs Layout.wideQuotient, |x.signed| < Residue.limbBound) ∧
      ∀ c ∈ w.next.limbs Layout.productCarry, |c.signed| < Carry.bound)
    ⟨fun ⟨ha, hb, hm, hr, hg, hq, hc⟩ => ⟨ha, hb, hm, hr, hg, hq, hc⟩,
      fun ⟨ha, hb, hm, hr, hg, hq, hc⟩ => ⟨ha, hb, hm, hr, hg, hq, hc⟩⟩

/-- Once the table accepts a window under an operator with a modulus, range checks on all registers
make the output its result and the quotient that of the exact outcome. -/
theorem output_determined (haccepts : Table.accepts w = true)
    (hselector : w.row.get op.selector = 1) (hw : RangeChecked w) :
    ∃ a b m : Word,
      (w.row.read Layout.operand0).value = Felt.ofInt a.val ∧
      (w.row.read Layout.operand1).value = Felt.ofInt b.val ∧
      (w.row.read Layout.operand2).value = Felt.ofInt m.val ∧
      (w.row.read Layout.output).value = Felt.ofInt (op.result a.val b.val m.val) ∧
      (w.row.read Layout.wideQuotient).signedValue = quotient (op.exact a.val b.val) m.val := by
  obtain ⟨-, hholds⟩ := @Table.holds_of_accepts w (.residue op) haccepts hselector
  have hla : (w.row.limbs Layout.operand0).length = 2 := Row.length_limbs _ _
  have hlb : (w.row.limbs Layout.operand1).length = 2 := Row.length_limbs _ _
  have hlm : (w.row.limbs Layout.operand2).length = 2 := Row.length_limbs _ _
  have hlr : (w.row.limbs Layout.output).length = 2 := Row.length_limbs _ _
  have hlq : (w.row.limbs Layout.wideQuotient).length = 4 := Row.length_limbs _ _
  obtain ⟨hq, hr⟩ := Remainder.number_eq hholds hw.modulus hw.output hw.gap hlm hlr fun hproper =>
    Residue.mul_add_of_proper hproper hla hlb hlm hlr hlq hw.first hw.second hw.modulus hw.output
      hw.quotient hw.carries
  refine ⟨⟨_, hw.first.word_bounds hla⟩, ⟨_, hw.second.word_bounds hlb⟩,
    ⟨_, hw.modulus.word_bounds hlm⟩, (Limb.ofInt_number _).symm, (Limb.ofInt_number _).symm,
    (Limb.ofInt_number _).symm, ?_, hq⟩
  exact (Limb.ofInt_number _).symm.trans (congrArg Felt.ofInt hr)

/-- Three less five modulo seven, whose quotient is negative. -/
theorem output_determined_negative :
    let w := Residue.filled (Operation.start (.residue .sub)) .sub 3 5 7
    ∃ a b m : Word,
      (w.row.read Layout.operand0).value = Felt.ofInt a.val ∧
      (w.row.read Layout.operand1).value = Felt.ofInt b.val ∧
      (w.row.read Layout.operand2).value = Felt.ofInt m.val ∧
      (w.row.read Layout.output).value = Felt.ofInt (result .sub a.val b.val m.val) ∧
      (w.row.read Layout.wideQuotient).signedValue =
        quotient (exact .sub a.val b.val) m.val :=
  output_determined (by decide +kernel) (by decide +kernel) (by decide +kernel)

end ResidueOp
end WordTrace

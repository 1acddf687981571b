import WordTrace.Carry
import WordTrace.Recorder

/-!
# Carry chains

Addition, subtraction and the two comparisons are each recorded as a sum `x + y = z` of words up to
a multiple of `2^32`, with a carry of zero or one out of every limb. For a comparison the outcome is
the last carry, and the wrapped difference stands in a register of its own.
-/

namespace WordTrace.Chain

/-- The sum that stands for an operator, with the output and, for a comparison, the difference. -/
structure Terms where
  output : Int
  wrapped : Option Int
  x : Int
  y : Int
  z : Int

def terms? (a b : Int) : WordOp → Option Terms
  | .add => some ⟨wrap (a + b), none, a, b, wrap (a + b)⟩
  | .sub => some ⟨wrap (a - b), none, wrap (a - b), b, a⟩
  | .lt => some ⟨if a < b then 1 else 0, some (wrap (a - b)), wrap (a - b), b, a⟩
  | .gt => some ⟨if b < a then 1 else 0, some (wrap (b - a)), wrap (b - a), a, b⟩
  | _ => none

def fill (a b : Int) (t : Terms) : Recorder Unit := do
  Recorder.writeWord .current Layout.operand0 a
  Recorder.writeWord .current Layout.operand1 b
  Recorder.writeWord .current Layout.output t.output
  let x ← Limb.splitWord t.x
  let y ← Limb.splitWord t.y
  let z ← Limb.splitWord t.z
  Recorder.write .current Layout.carry (← Carry.ofSum x y z)
  match t.wrapped with
  | some d => Recorder.writeWord .current Layout.wrapped d
  | none => pure ()

/-- Records the operator that the selector names. -/
def record (selector a b : Int) : Recorder Unit :=
  match (WordOp.ofSelector? selector).bind (terms? a b) with
  | some t => fill a b t
  | none => throw (.unsupported .chain selector)

/-- One of the sums, over the field. -/
structure Link where
  selector : Felt
  x : List Felt
  y : List Felt
  z : List Felt

def links (r : Row) : List Link :=
  let a := r.limbs Layout.operand0
  let b := r.limbs Layout.operand1
  let out := r.limbs Layout.output
  let d := r.limbs Layout.wrapped
  [⟨r.get (WordOp.selector .add), a, b, out⟩, ⟨r.get (WordOp.selector .sub), out, b, a⟩,
    ⟨r.get (WordOp.selector .lt), d, b, a⟩, ⟨r.get (WordOp.selector .gt), d, a, b⟩]

def Link.identities (l : Link) (carries : List Felt) : List Felt :=
  (Carry.residuals (LimbPoly.difference l.z (LimbPoly.sum l.x l.y)) carries).map (l.selector * ·)

/-- The sums, carries that are zero or one, and comparisons equal to the last carry. -/
def identities (w : Window) : List Felt :=
  let r := w.row
  let carries := r.limbs Layout.carry
  let comparison := r.get (WordOp.selector .lt) + r.get (WordOp.selector .gt)
  let active := r.get (WordOp.selector .add) + r.get (WordOp.selector .sub) +
    r.get (WordOp.selector .lt) + r.get (WordOp.selector .gt)
  (links r).flatMap (·.identities carries) ++
    carries.map (active * Felt.booleanity ·) ++
    [comparison * (r.get Layout.outputLow - r.get Layout.topCarry),
      comparison * r.get Layout.outputHigh]

end WordTrace.Chain

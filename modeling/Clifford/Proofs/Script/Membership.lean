import Clifford.Proofs.Algebra.SandwichMembership
import Clifford.Proofs.Script.Guarantees

/-!
# Steps stay in order

Whatever step a script makes, it leaves the target in order, and everything it makes has values.
This needs no more of its operands than that they have values themselves; they may belong to any
algebra, and the step may fail. The reading need only be steady.

## Main definitions

- `Guarantees.proper` — everything that is made has values

## Main results

- `Step.admits_proper` — every step passes this on
-/

namespace Clifford

variable {σ K S V : Type} [Number K] {M : Reading σ K S V} {A : Algebra K S}
  {q : Nat → K} {s : σ} {m a b : Multivector K S}

/-- Everything that is made has values, in whatever algebra. -/
def Guarantees.proper (M : Reading σ K S V) : Guarantees σ K S where
  multivector s m := M.Proper s m
  factor s f := M.Known s f
  sandwich s P := P.Proper M s
  circle s c := M.ProperCircle s c

theorem Guarantees.lasting_proper (M : Reading σ K S V) : (proper M).Lasting M where
  multivector hext h := h.mono hext
  factor hext h := hext.known h
  sandwich hext h := h.mono hext
  circle hext h := h.mono hext
  number x := Reading.known_number x
  value b h := h.known_value b

omit [Number K] in
/-- Members of an algebra are proper. -/
theorem Reading.Ends.proper {c : Emission σ K (Multivector K S)}
    (h : M.Ends True c s fun r s' => M.Member A s' r) :
    M.Ends True c s fun r s' => (Guarantees.proper M).multivector s' r :=
  .mono h (fun h => h) fun _ _ _ hr => hr.proper

variable [Target σ K S V]

theorem UnaryOperation.perform_proper [Ord S] (hM : M.Steady) (hA : M.Ready A s q)
    (op : UnaryOperation) (hm : M.Proper s m) :
    M.Ends True (op.perform A m) s fun r s' => (Guarantees.proper M).multivector s' r := by
  refine Reading.Ends.proper (A := A) ?_
  cases op with
  | negate => exact Algebra.resign_member hM hA hm "negate" fun _ => true
  | gradeInvolution =>
    exact Algebra.resign_member hM hA hm "grade involution" fun b => isOdd b.grade
  | reverse => exact Algebra.resign_member hM hA hm "reverse" fun b => isOdd b.reverseFlips
  | conjugate =>
    exact Algebra.resign_member hM hA hm "conjugate" fun b => isOdd (b.grade + b.reverseFlips)
  | extractGrade k => exact Algebra.extract_member hM hA (fun b => b.grade == k) hm
  | extract blades => exact Algebra.extract_member hM hA (fun b => blades.contains b) hm
  | inverse => exact Algebra.inverse_member hM hA hm
  | normalize => exact Algebra.normalize_member hM hA hm
  | dual => exact Algebra.dual_member hM hA hm
  | undual => exact Algebra.undual_member hM hA hm
  | exp => exact Algebra.exp_member hM hA hm
  | log => exact Algebra.log_member hM hA hm

theorem BinaryOperation.perform_proper (hM : M.Steady) (hA : M.Ready A s q)
    (op : BinaryOperation) (ha : M.Proper s a) (hb : M.Proper s b) :
    M.Ends True (op.perform A a b) s fun r s' => (Guarantees.proper M).multivector s' r := by
  refine Reading.Ends.proper (A := A) ?_
  cases op with
  | minus => exact Algebra.minus_member hM hA ha hb
  | mul kind => exact Algebra.mul_member hM hA kind ha hb
  | sandwichProduct => exact Algebra.sandwichProduct_member hM hA ha hb
  | reflect => exact Algebra.reflect_member hM hA ha hb

theorem Measure.perform_proper (hM : M.Steady) (hA : M.Ready A s q) (op : Measure)
    (hm : M.Proper s m) :
    M.Ends True (op.perform A m) s fun r s' => (Guarantees.proper M).factor s' r := by
  cases op with
  | normSquared => exact Algebra.normSquared_known hM hA hm
  | norm => exact Algebra.norm_known hM hA hm

theorem Comparison.perform_proper (hM : M.Steady) (hA : M.Ready A s q) (op : Comparison)
    (ha : M.Proper s a) (hb : M.Proper s b) :
    M.Ends True (op.perform A a b) s fun r s' => (Guarantees.proper M).factor s' r := by
  cases op with
  | scalarProduct => exact Algebra.scalarProduct_known hM hA ha hb
  | dist => exact Algebra.dist_known hM hA ha hb
  | angle => exact Algebra.angle_known hM hA ha hb

/-- **Every step passes on that everything has values.** -/
theorem Step.admits_proper [Ord S] (hM : M.Steady) (step : Step K) :
    (Guarantees.proper M).Admits M A q step := by
  cases step with
  | zero => exact fun s => ⟨List.nodup_nil, nofun⟩
  | one => exact fun s hA => .proper (Algebra.one_member hM hA)
  | pseudoscalar => exact fun s hA => .proper (Algebra.pseudoscalar_member hM hA)
  | basisVectors =>
    intro s hA
    refine .mono (Algebra.basisVectors_member hM hA) (fun h => h) ?_
    exact fun rs s' _ hrs r hr => (hrs r hr).proper
  | scalar x => exact fun s x hA hx => .proper (Algebra.scalar_member hM hA hx)
  | vector xs => exact fun s xs hA hxs => .proper (Algebra.vector_member hM hA hxs)
  | named components => exact fun s cs hA hcs => .proper (Algebra.ofNamed_member hM hA hcs)
  | call f args => exact fun s xs hA hxs => Algebra.call_known hM f hA.ready hxs
  | combine op l r => exact fun s x y hA hx hy => Algebra.combine_known hM op hA.ready hx hy
  | coefficient m b => trivial
  | scale x m => exact fun s x m hA hx hm => .proper (Algebra.scale_member hM hA hx hm)
  | withKnownUnit m knownUnit => exact fun s m hm => hm.withKnownUnit knownUnit
  | unary op m => exact fun s m hA hm => op.perform_proper hM hA hm
  | binary op a b => exact fun s a b hA ha hb => op.perform_proper hM hA ha hb
  | measure op m => exact fun s m hA hm => op.perform_proper hM hA hm
  | compare op a b => exact fun s a b hA ha hb => op.perform_proper hM hA ha hb
  | plus ms => exact fun s ms hA hms => .proper (Algebra.plus_member hM hA hms)
  | mulAll kind ms => exact fun s ms hA hms => .proper (Algebra.mulAll_member hM hA kind hms)
  | outermorphism m rows =>
    exact fun s m matrix hA hm hmatrix =>
      .proper (Algebra.outermorphism_member hM hA hm hmatrix)
  | slerp a b ts =>
    exact ⟨fun s a b hA ha hb => Algebra.slerp_proper hM hA ha hb,
      fun s c t hA hc ht => .proper (Algebra.slerpAt_member hM hA hc ht)⟩
  | sandwich operator =>
    intro s m hA hm
    exact .mono (Algebra.sandwich_proper hA hm) (fun h => h) fun _ _ _ h => h.1
  | apply step x options =>
    intro s P x hA hP hx
    refine Yields.mono (Sandwich.applyWith_proper hM hA.ready hP hx options) ?_
    rintro ⟨result, P'⟩ s' ⟨hadv, hP', hresult⟩
    exact ⟨hadv, hP', fun r hr => (hresult r hr).proper⟩
  | force step => exact fun s P hA hP => Sandwich.force_proper hM hA.ready hP
  | chain operators x =>
    exact fun s ms x hA hms hx => .proper (Algebra.sandwichChain_member hM hA hms hx)

end Clifford

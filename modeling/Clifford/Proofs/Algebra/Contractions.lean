import Clifford.Proofs.Algebra.Involutions
import Clifford.Proofs.Values.Exterior

/-!
# Wedge products and contractions

The wedge product and the contractions keep a pair of blades or drop it by a condition on grades.
Each condition says how the two blades lie to each other: without a common vector, or one within
the other. Two products in a row keep a triple of blades by two such conditions, and the
bracketings of a product of three keep the same triples. On these they agree, because the geometric
product does: that holds in every metric, because no factor of the metric was lost on the way.

## Main definitions

- `ProductKind.Rebracket` — two ways to bracket a product of three keep the same blades
- `Algebra.bothBrackets` — the two bracketings, one after the other

## Main results

- `ProductKind.includes_leftContraction`, `ProductKind.includes_rightContraction` — the conditions
  on grades as conditions on blades
- `ProductKind.Rebracket.convolve` — bracketings that keep the same blades agree
- `Algebra.wedge_contraction_laws` — the laws of wedge products and contractions
-/

namespace Clifford

/-! ### Pairs and triples of blades -/

namespace Blade

variable {a b c : Blade}

/-- A blade that loses no vector to another one lies within it. -/
theorem grade_and_eq_left : (a &&& b).grade = a.grade ↔ a &&& b = a := by
  refine ⟨fun h => ?_, congrArg grade⟩
  -- The rest of the left blade has no grade left, so there is no rest.
  have hself : a &&& b &&& a = a &&& b := by
    rw [BitVec.and_comm (a &&& b), ← BitVec.and_assoc, BitVec.and_self]
  have hgrade := grade_xor (a &&& b) a
  rw [hself] at hgrade
  have hrest : a &&& b ^^^ a = 0 := grade_eq_zero.1 (by omega)
  exact BitVec.xor_eq_zero_iff.1 hrest

/-- Three blades have no vector twice, by whichever two it is found out first. -/
theorem disjoint_rebracket :
    (a &&& b = 0 ∧ (a ^^^ b) &&& c = 0) ↔ (b &&& c = 0 ∧ a &&& (b ^^^ c) = 0) := by
  -- Both sides speak of each position by itself: at most one of the blades has it.
  simp only [BitVec.eq_of_getLsbD_eq_iff, ← forall_and, BitVec.getLsbD_and, BitVec.getLsbD_xor]
  refine forall_congr' fun i => ?_
  cases a.getLsbD i <;> cases b.getLsbD i <;> cases c.getLsbD i <;> simp

/-- Disjoint blades lie within a third one if one of them does, and the other within the rest. -/
theorem within_rebracket :
    (a &&& b = 0 ∧ (a ^^^ b) &&& c = a ^^^ b) ↔ (b &&& c = b ∧ a &&& (b ^^^ c) = a) := by
  -- At each position: one of the first two blades at most, and only where the third one has it.
  simp only [BitVec.eq_of_getLsbD_eq_iff, ← forall_and, BitVec.getLsbD_and, BitVec.getLsbD_xor]
  refine forall_congr' fun i => ?_
  cases a.getLsbD i <;> cases b.getLsbD i <;> cases c.getLsbD i <;> simp

end Blade

namespace ProductKind

/-- The left contraction keeps the pairs whose left blade lies within the right one. -/
theorem includes_leftContraction {a b : Blade} :
    leftContraction.includes a b = true ↔ a &&& b = a := by
  have hgrade := Blade.grade_xor a b
  have hright := Blade.grade_and_le b a
  rw [BitVec.and_comm] at hright
  rw [← Blade.grade_and_eq_left, includes, Bool.and_eq_true, decide_eq_true_eq, decide_eq_true_eq]
  omega

/-- The right contraction keeps the pairs that the left one keeps with the blades exchanged. -/
theorem includes_rightContraction_swap (a b : Blade) :
    rightContraction.includes a b = leftContraction.includes b a := by
  simp only [includes, BitVec.xor_comm a b]

theorem includes_rightContraction {a b : Blade} :
    rightContraction.includes a b = true ↔ b &&& a = b := by
  rw [includes_rightContraction_swap, includes_leftContraction]

/-- Two ways to bracket a product of three factors keep the same blades. On the one side `k₁` joins
the first two factors and `k₂` the third to them; on the other `k₃` joins the last two and `k₄` the
first to them. -/
def Rebracket (k₁ k₂ k₃ k₄ : ProductKind) : Prop :=
  ∀ a b c : Blade, (k₁.includes a b = true ∧ k₂.includes (a ^^^ b) c = true) ↔
    (k₃.includes b c = true ∧ k₄.includes a (b ^^^ c) = true)

theorem rebracket_wedge : Rebracket wedge wedge wedge wedge := by
  intro a b c
  simp only [includes_wedge]
  exact Blade.disjoint_rebracket

/-- To contract with a wedge product is to contract with its factors. -/
theorem rebracket_leftContraction :
    Rebracket wedge leftContraction leftContraction leftContraction := by
  intro a b c
  simp only [includes_wedge, includes_leftContraction]
  exact Blade.within_rebracket

theorem rebracket_rightContraction :
    Rebracket rightContraction rightContraction wedge rightContraction := by
  intro a b c
  -- The same statement as for the left contraction, read from the right.
  have hturned := Blade.within_rebracket (a := c) (b := b) (c := a)
  simp only [includes_wedge, includes_rightContraction]
  rw [BitVec.and_comm b c, BitVec.xor_comm a b, BitVec.xor_comm b c, hturned]

section Kernel

variable {R : Type*} [CommRing R]

theorem kernel_mul_kernel (kind kind' : ProductKind) (q : Nat → R) (a b c d : Blade) :
    kind.kernel q a b * kind'.kernel q c d =
      if kind.includes a b = true ∧ kind'.includes c d = true then a.twist q b * c.twist q d
      else 0 := by
  rw [kernel, kernel, ite_and, ite_mul, mul_ite, zero_mul, mul_zero]

variable {k₁ k₂ k₃ k₄ : ProductKind}

/-- **Bracketings that keep the same blades agree.** -/
theorem Rebracket.convolve (h : Rebracket k₁ k₂ k₃ k₄) (q : Nat → R) (f g w : Values R) :
    Values.convolve (k₂.kernel q) (Values.convolve (k₁.kernel q) f g) w =
      Values.convolve (k₄.kernel q) f (Values.convolve (k₃.kernel q) g w) := by
  -- On the triples that are kept this is the law of the geometric product.
  refine Values.convolve_assoc (fun a b c => ?_) f g w
  rw [kernel_mul_kernel, kernel_mul_kernel, Blade.twist_cocycle]
  exact if_congr (h a b c) rfl rfl

/-- A product that keeps the pairs of another one, exchanged, is made of the reverses. -/
theorem reversed_convolve_kernel {kind kind' : ProductKind}
    (h : ∀ a b, kind.includes a b = kind'.includes b a) (q : Nat → R) (f g : Values R) :
    Values.reversed (Values.convolve (kind.kernel q) f g) =
      Values.convolve (kind'.kernel q) (Values.reversed g) (Values.reversed f) := by
  refine Values.reversed_convolve_of_kernel (fun a b => ?_) f g
  rw [kernel, kernel, h, mul_ite, mul_zero, ite_mul, zero_mul, Blade.reverseSign_mul_twist]

end Kernel

end ProductKind

/-! ### Operations -/

namespace Algebra

variable {σ K S V : Type} [Number K] [Target σ K S V]

/-- The two ways to bracket a product of three, computed one after the other. -/
def bothBrackets (A : Algebra K S) (k₁ k₂ k₃ k₄ : ProductKind) (a b c : Multivector K S) :
    Emission σ K (Multivector K S × Multivector K S) := do
  let ab ← A.mul k₁ a b
  let left ← A.mul k₂ ab c
  let bc ← A.mul k₃ b c
  let right ← A.mul k₄ a bc
  pure (left, right)

variable [ExactNumber K] {M : Reading σ K S V} {A : Algebra K S} {s : σ} {q : Nat → K}
  {a b c : Multivector K S} {k₁ k₂ k₃ k₄ : ProductKind}

theorem joins_mul (hM : M.Sound) (kind : ProductKind) :
    Joins M A q (A.mul kind) (Values.convolve (kind.kernel q)) := by
  intro s a b f g hA ha hb
  refine .mono (mul_gives hM hA ha hb kind) ?_
  intro r s' ⟨hadv, hr, _⟩
  exact ⟨hadv, hr⟩

/-- Bracketings that keep the same blades give multivectors of the same value. -/
theorem bothBrackets_gives (hM : M.Sound) (h : ProductKind.Rebracket k₁ k₂ k₃ k₄)
    (hA : M.Ready A s q) (ha : M.Member A s a) (hb : M.Member A s b) (hc : M.Member A s c) :
    (A.bothBrackets k₁ k₂ k₃ k₄ a b c).Gives s fun (left, right) s' => M.Agree s' left right := by
  have ha₀ := ha.denotes
  have hb₀ := hb.denotes
  have hc₀ := hc.denotes
  refine .bind (.mono (joins_mul hM k₁ hA ha₀ hb₀) ?_)
  intro ab s₁ ⟨hadv₁, hab⟩
  have hadv := hadv₁
  refine .bind (.mono (joins_mul hM k₂ (hA.advance hadv) hab (hc₀.mono hadv.symbols)) ?_)
  intro left s₂ ⟨hadv₂, hleft⟩
  have hadv := hadv.trans hadv₂
  refine .bind (.mono (joins_mul hM k₃ (hA.advance hadv) (hb₀.mono hadv.symbols)
    (hc₀.mono hadv.symbols)) ?_)
  intro bc s₃ ⟨hadv₃, hbc⟩
  have hadv := hadv.trans hadv₃
  refine .bind (.mono (joins_mul hM k₄ (hA.advance hadv) (ha₀.mono hadv.symbols) hbc) ?_)
  intro right s₄ ⟨hadv₄, hright⟩
  rw [h.convolve] at hleft
  exact .pure ((hleft.mono (hadv₃.trans hadv₄).symbols).agree hright)

/-- **The wedge product is associative; to contract with a wedge product, from the left or from the
right, is to contract with its factors; and the reverse of a left contraction is the right
contraction of the reverses, turned around.** The metric may have any entries that have values,
among them zeros, negative numbers and symbols. -/
theorem wedge_contraction_laws (hM : M.Sound) (hopen : M.Open s [])
    (hmetric : ∀ square ∈ A.metric, M.Known s square) (ha : M.Member A s a)
    (hb : M.Member A s b) (hc : M.Member A s c) :
    ((A.bothBrackets .wedge .wedge .wedge .wedge a b c).Gives s
      fun (left, right) s' => M.Agree s' left right) ∧
    ((A.bothBrackets .wedge .leftContraction .leftContraction .leftContraction a b c).Gives s
      fun (ofWedge, ofFactors) s' => M.Agree s' ofWedge ofFactors) ∧
    ((A.bothBrackets .rightContraction .rightContraction .wedge .rightContraction c a b).Gives s
      fun (ofFactors, ofWedge) s' => M.Agree s' ofFactors ofWedge) ∧
    ((besideJoined A.reverse (A.mul .leftContraction)
      (fun ra rb => A.mul .rightContraction rb ra) a b).Gives s
        fun (ofContraction, contraction) s' => M.Agree s' ofContraction contraction) := by
  have hA : M.Ready A s (M.squares s A.metric) := ⟨hopen, Reading.squares_spec hmetric⟩
  refine ⟨?_, ?_, ?_, ?_⟩
  · exact bothBrackets_gives hM ProductKind.rebracket_wedge hA ha hb hc
  · exact bothBrackets_gives hM ProductKind.rebracket_leftContraction hA ha hb hc
  · exact bothBrackets_gives hM ProductKind.rebracket_rightContraction hA hc ha hb
  · refine (acts_reverse hM).besideJoined_gives (joins_mul hM .leftContraction)
      (joins_mul hM .rightContraction).turned ?_ hA ha hb
    exact ProductKind.reversed_convolve_kernel
      (fun a b => (ProductKind.includes_rightContraction_swap b a).symm) _

/-- In a plane with a symbolic square and a null vector. -/
theorem wedge_contraction_laws_inputPlane :
    let a : Multivector ℚ Handle := .inInputPlane 1
    let b : Multivector ℚ Handle := .inInputPlane 2
    let c : Multivector ℚ Handle := .inInputPlane 3
    let s := Program.singleInput.2
    let M := Program.reading fun _ => some 5
    ((inputPlane.bothBrackets .wedge .wedge .wedge .wedge a b c).Gives s
      fun (left, right) s' => M.Agree s' left right) ∧
    ((inputPlane.bothBrackets .wedge .leftContraction .leftContraction .leftContraction
      a b c).Gives s fun (ofWedge, ofFactors) s' => M.Agree s' ofWedge ofFactors) ∧
    ((inputPlane.bothBrackets .rightContraction .rightContraction .wedge .rightContraction
      c a b).Gives s fun (ofFactors, ofWedge) s' => M.Agree s' ofFactors ofWedge) ∧
    ((besideJoined inputPlane.reverse (inputPlane.mul .leftContraction)
      (fun ra rb => inputPlane.mul .rightContraction rb ra) a b).Gives s
        fun (ofContraction, contraction) s' => M.Agree s' ofContraction contraction) :=
  wedge_contraction_laws Program.sound_reading (Program.orderly_singleInput _)
    (known_inputPlane _) (Multivector.member_inInputPlane _ 1)
    (Multivector.member_inInputPlane _ 2) (Multivector.member_inInputPlane _ 3)

end Algebra

end Clifford

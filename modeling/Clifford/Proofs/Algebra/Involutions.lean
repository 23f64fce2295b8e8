import Clifford.Proofs.Algebra.Versors

/-!
# Involutions and products

Reversion and Clifford conjugation turn products around, the grade involution keeps their order,
and each of the three undoes itself. All three change signs blade by blade, so a law about results
is a law about coefficient functions together with the fact that an operation acts on them.

## Main definitions

- `Algebra.Acts`, `Algebra.Joins` — an operation on one multivector, or on two of them, acts on
  coefficients as a function does
- `Algebra.besideJoined`, `Algebra.besideProduct` — an operation on what two multivectors are
  joined to, such as their product, beside a product of what it makes of the two
- `Algebra.twice` — an operation applied to its own result

## Main results

- `Algebra.Acts.twice_gives`, `Algebra.Acts.besideJoined_gives` — laws of results from laws of
  coefficients
- `Algebra.involutions_respect_geometric_product` — all of the laws, for any diagonal metric
-/

namespace Clifford

namespace Values

variable {R : Type*} [CommRing R]

@[simp] theorem involuted_involuted (f : Values R) : involuted (involuted f) = f := by
  funext b
  rw [involuted_apply, involuted_apply, ← mul_assoc, ← mul_pow, neg_one_mul, neg_neg, one_pow,
    one_mul]

/-- Both operations only change signs, so they can be exchanged. -/
theorem reversed_involuted (f : Values R) : reversed (involuted f) = involuted (reversed f) := by
  funext b
  simp only [reversed_apply, involuted_apply]
  ring

/-- The coefficients of the Clifford conjugate. -/
def conjugated (f : Values R) : Values R := involuted (reversed f)

@[simp] theorem conjugated_conjugated (f : Values R) : conjugated (conjugated f) = f := by
  rw [conjugated, conjugated, reversed_involuted, reversed_reversed, involuted_involuted]

theorem conjugated_convolve (q : Nat → R) (f g : Values R) :
    conjugated (convolve (Blade.twist q) f g) =
      convolve (Blade.twist q) (conjugated g) (conjugated f) := by
  rw [conjugated, reversed_convolve, involuted_convolve, conjugated, conjugated]

end Values

namespace Algebra

variable {σ K S V : Type}

/-- An operation, applied to its own result. -/
def twice (operation : Multivector K S → Emission σ K (Multivector K S)) (m : Multivector K S) :
    Emission σ K (Multivector K S) := do
  let once ← operation m
  operation once

/-- An operation on what two multivectors are joined to, beside a product of what it makes of the
two. -/
def besideJoined (operation : Multivector K S → Emission σ K (Multivector K S))
    (join product : Multivector K S → Multivector K S → Emission σ K (Multivector K S))
    (a b : Multivector K S) : Emission σ K (Multivector K S × Multivector K S) := do
  let joined ← join a b
  let ofJoined ← operation joined
  let ofLeft ← operation a
  let ofRight ← operation b
  let product ← product ofLeft ofRight
  pure (ofJoined, product)

variable [Number K]

/-- An operation on one multivector acts on its coefficients as a function does. -/
def Acts (M : Reading σ K S V) (A : Algebra K S)
    (operation : Multivector K S → Emission σ K (Multivector K S))
    (φ : Values K → Values K) : Prop :=
  ∀ ⦃s : σ⦄ ⦃m : Multivector K S⦄ ⦃f : Values K⦄, M.Open s [] → M.Denotes A s m f →
    (operation m).Gives s fun r s' => M.Advances s s' ∧ M.Denotes A s' r (φ f)

/-- An operation on two multivectors acts on coefficients as a function does, where the metric has
the values `q`. -/
def Joins (M : Reading σ K S V) (A : Algebra K S) (q : Nat → K)
    (product : Multivector K S → Multivector K S → Emission σ K (Multivector K S))
    (ψ : Values K → Values K → Values K) : Prop :=
  ∀ ⦃s : σ⦄ ⦃a b : Multivector K S⦄ ⦃f g : Values K⦄, M.Ready A s q → M.Denotes A s a f →
    M.Denotes A s b g →
      (product a b).Gives s fun r s' => M.Advances s s' ∧ M.Denotes A s' r (ψ f g)

variable {M : Reading σ K S V} {A : Algebra K S} {s : σ} {q : Nat → K} {a b m : Multivector K S}
  {operation : Multivector K S → Emission σ K (Multivector K S)} {φ : Values K → Values K}
  {product : Multivector K S → Multivector K S → Emission σ K (Multivector K S)}
  {ψ : Values K → Values K → Values K}

theorem Joins.turned (h : Joins M A q product ψ) :
    Joins M A q (fun a b => product b a) fun f g => ψ g f :=
  fun _ _ _ _ _ hA ha hb => h hA hb ha

/-- An operation that undoes itself on coefficients undoes itself on multivectors. -/
theorem Acts.twice_gives (hact : Acts M A operation φ) (hφ : ∀ f, φ (φ f) = f)
    (hopen : M.Open s []) (hm : M.Member A s m) :
    (twice operation m).Gives s fun r s' => M.Agree s' r m := by
  have hm₀ := hm.denotes
  refine .bind (.mono (hact hopen hm₀) ?_)
  intro once s₁ ⟨hadv₁, honce⟩
  refine .mono (hact hadv₁.ready honce) ?_
  intro r s₂ ⟨hadv₂, hr⟩
  rw [hφ] at hr
  exact hr.agree (hm₀.mono (hadv₁.trans hadv₂).symbols)

/-- An operation whose function respects a product gives the same for a product as the product of
what it gives for the factors. The product that joins the results may differ from the one of the
operands: some operations turn it around. -/
theorem Acts.besideJoined_gives {join : Multivector K S → Multivector K S →
    Emission σ K (Multivector K S)} {χ : Values K → Values K → Values K}
    (hact : Acts M A operation φ) (hjoin : Joins M A q join χ) (hproduct : Joins M A q product ψ)
    (hφ : ∀ f g, φ (χ f g) = ψ (φ f) (φ g)) (hA : M.Ready A s q) (ha : M.Member A s a)
    (hb : M.Member A s b) :
    (besideJoined operation join product a b).Gives s fun (ofJoined, product) s' =>
      M.Agree s' ofJoined product := by
  have ha₀ := ha.denotes
  have hb₀ := hb.denotes
  refine .bind (.mono (hjoin hA ha₀ hb₀) ?_)
  intro joined s₁ ⟨hadv₁, hjoined⟩
  have hadv := hadv₁
  refine .bind (.mono (hact hadv.ready hjoined) ?_)
  intro ofJoined s₂ ⟨hadv₂, hofJoined⟩
  have hadv := hadv.trans hadv₂
  refine .bind (.mono (hact hadv.ready (ha₀.mono hadv.symbols)) ?_)
  intro ofLeft s₃ ⟨hadv₃, hofLeft⟩
  have hadv := hadv.trans hadv₃
  refine .bind (.mono (hact hadv.ready (hb₀.mono hadv.symbols)) ?_)
  intro ofRight s₄ ⟨hadv₄, hofRight⟩
  have hadv := hadv.trans hadv₄
  refine .bind (.mono (hproduct (hA.advance hadv) (hofLeft.mono hadv₄.symbols) hofRight) ?_)
  intro r s₅ ⟨hadv₅, hr⟩
  rw [hφ] at hofJoined
  exact .pure ((hofJoined.mono ((hadv₃.trans hadv₄).trans hadv₅).symbols).agree hr)

variable [Target σ K S V]

/-- An operation on a product, beside the product of what it makes of the factors. -/
def besideProduct (A : Algebra K S)
    (operation : Multivector K S → Emission σ K (Multivector K S))
    (product : Multivector K S → Multivector K S → Emission σ K (Multivector K S))
    (a b : Multivector K S) : Emission σ K (Multivector K S × Multivector K S) :=
  besideJoined operation (A.mul .geometric) product a b

variable [ExactNumber K]

theorem acts_reverse (hM : M.Sound) : Acts M A A.reverse Values.reversed := by
  intro s m f hopen hm
  refine .mono (reverse_gives hM hopen hm) ?_
  intro r s' h
  exact ⟨h.1, h.2.1⟩

theorem acts_gradeInvolution (hM : M.Sound) : Acts M A A.gradeInvolution Values.involuted := by
  intro s m f hopen hm
  refine .mono (gradeInvolution_gives hM hopen hm) ?_
  intro r s' h
  exact ⟨h.1, h.2.1⟩

theorem acts_conjugate (hM : M.Sound) : Acts M A A.conjugate Values.conjugated := by
  intro s m f hopen hm
  refine .mono (conjugate_gives hM hopen hm) ?_
  intro r s' h
  rw [Values.conjugated, ← Values.flipped_conjugate]
  exact ⟨h.1, h.2.1⟩

theorem joins_geometric (hM : M.Sound) :
    Joins M A q (A.mul .geometric) (Values.convolve (Blade.twist q)) :=
  fun _ _ _ _ _ hA ha hb => geometric_gives hM hA ha hb

/-- An operation whose function turns the geometric product into another one gives the same for a
geometric product as that other product of what it gives for the factors. -/
theorem Acts.besideProduct_gives (hact : Acts M A operation φ) (hM : M.Sound)
    (hproduct : Joins M A q product ψ)
    (hφ : ∀ f g, φ (Values.convolve (Blade.twist q) f g) = ψ (φ f) (φ g))
    (hA : M.Ready A s q) (ha : M.Member A s a) (hb : M.Member A s b) :
    (A.besideProduct operation product a b).Gives s fun (ofProduct, product) s' =>
      M.Agree s' ofProduct product :=
  hact.besideJoined_gives (joins_geometric hM) hproduct hφ hA ha hb

/-- The conjugate is the reverse of the grade involution. -/
theorem conjugate_beside_reverse_gives (hM : M.Sound) (hopen : M.Open s [])
    (hm : M.Member A s m) :
    Emission.Gives (do
      let conjugate ← A.conjugate m
      let involution ← A.gradeInvolution m
      let reverse ← A.reverse involution
      pure (conjugate, reverse)) s fun (conjugate, reverse) s' =>
        M.Agree s' conjugate reverse := by
  have hm₀ := hm.denotes
  refine .bind (.mono (acts_conjugate hM hopen hm₀) ?_)
  intro conjugate s₁ ⟨hadv₁, hconjugate⟩
  refine .bind (.mono (acts_gradeInvolution hM hadv₁.ready (hm₀.mono hadv₁.symbols)) ?_)
  intro involution s₂ ⟨hadv₂, hinvolution⟩
  refine .bind (.mono (acts_reverse hM hadv₂.ready hinvolution) ?_)
  intro reverse s₃ ⟨hadv₃, hreverse⟩
  rw [Values.reversed_involuted] at hreverse
  exact .pure ((hconjugate.mono (hadv₂.trans hadv₃).symbols).agree hreverse)

/-- **Reversion and conjugation turn the geometric product around, the grade involution keeps its
order; the conjugate is the reverse of the grade involution; and each of the three undoes itself.**
The metric may have any entries that have values, among them zeros, negative numbers and symbols.
Every law compares results that are computed one after another on the same target. -/
theorem involutions_respect_geometric_product (hM : M.Sound) (hopen : M.Open s [])
    (hmetric : ∀ square ∈ A.metric, M.Known s square) (ha : M.Member A s a)
    (hb : M.Member A s b) :
    ((A.besideProduct A.reverse (fun ra rb => A.mul .geometric rb ra) a b).Gives s
      fun (ofProduct, product) s' => M.Agree s' ofProduct product) ∧
    ((A.besideProduct A.gradeInvolution (fun ia ib => A.mul .geometric ia ib) a b).Gives s
      fun (ofProduct, product) s' => M.Agree s' ofProduct product) ∧
    ((A.besideProduct A.conjugate (fun ca cb => A.mul .geometric cb ca) a b).Gives s
      fun (ofProduct, product) s' => M.Agree s' ofProduct product) ∧
    (Emission.Gives (do
      let conjugate ← A.conjugate a
      let involution ← A.gradeInvolution a
      let reverse ← A.reverse involution
      pure (conjugate, reverse)) s fun (conjugate, reverse) s' =>
        M.Agree s' conjugate reverse) ∧
    ((twice A.reverse a).Gives s fun r s' => M.Agree s' r a) ∧
    ((twice A.gradeInvolution a).Gives s fun r s' => M.Agree s' r a) ∧
    ((twice A.conjugate a).Gives s fun r s' => M.Agree s' r a) := by
  have hA : M.Ready A s (M.squares s A.metric) := ⟨hopen, Reading.squares_spec hmetric⟩
  refine ⟨?_, ?_, ?_, conjugate_beside_reverse_gives hM hopen ha, ?_, ?_, ?_⟩
  · exact (acts_reverse hM).besideProduct_gives hM (joins_geometric hM).turned
      (Values.reversed_convolve _) hA ha hb
  · exact (acts_gradeInvolution hM).besideProduct_gives hM (joins_geometric hM)
      (Values.involuted_convolve _) hA ha hb
  · exact (acts_conjugate hM).besideProduct_gives hM (joins_geometric hM).turned
      (Values.conjugated_convolve _) hA ha hb
  · exact (acts_reverse hM).twice_gives Values.reversed_reversed hopen ha
  · exact (acts_gradeInvolution hM).twice_gives Values.involuted_involuted hopen ha
  · exact (acts_conjugate hM).twice_gives Values.conjugated_conjugated hopen ha

/-- In a plane with a symbolic square and a null vector. -/
theorem involutions_respect_geometric_product_inputPlane :
    let a : Multivector ℚ Handle := .inInputPlane 1
    let b : Multivector ℚ Handle := .inInputPlane 2
    let s := Program.singleInput.2
    let M := Program.reading fun _ => some 5
    ((inputPlane.besideProduct inputPlane.reverse
      (fun ra rb => inputPlane.mul .geometric rb ra) a b).Gives s
        fun (ofProduct, product) s' => M.Agree s' ofProduct product) ∧
    ((inputPlane.besideProduct inputPlane.gradeInvolution
      (fun ia ib => inputPlane.mul .geometric ia ib) a b).Gives s
        fun (ofProduct, product) s' => M.Agree s' ofProduct product) ∧
    ((inputPlane.besideProduct inputPlane.conjugate
      (fun ca cb => inputPlane.mul .geometric cb ca) a b).Gives s
        fun (ofProduct, product) s' => M.Agree s' ofProduct product) ∧
    (Emission.Gives (do
      let conjugate ← inputPlane.conjugate a
      let involution ← inputPlane.gradeInvolution a
      let reverse ← inputPlane.reverse involution
      pure (conjugate, reverse)) s fun (conjugate, reverse) s' =>
        M.Agree s' conjugate reverse) ∧
    ((twice inputPlane.reverse a).Gives s fun r s' => M.Agree s' r a) ∧
    ((twice inputPlane.gradeInvolution a).Gives s fun r s' => M.Agree s' r a) ∧
    ((twice inputPlane.conjugate a).Gives s fun r s' => M.Agree s' r a) :=
  involutions_respect_geometric_product Program.sound_reading (Program.orderly_singleInput _)
    (known_inputPlane _) (Multivector.member_inInputPlane _ 1) (Multivector.member_inInputPlane _ 2)

end Algebra

end Clifford

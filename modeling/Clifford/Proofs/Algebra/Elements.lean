import Clifford.Algebra.Elements
import Clifford.Proofs.Algebra.Building

/-!
# Values of elements

What scalars, vectors and multivectors of named coefficients stand for.

## Main definitions

- `Values.vector`, `Values.named` — the coefficients of vectors and of named components

## Main results

- `Algebra.build_single_gives` — a single contribution adds one component
- `Algebra.scalar_gives`, `Algebra.one_gives` — a scalar has its value at the scalar blade
- `Algebra.vector_gives`, `Algebra.ofNamed_gives` — vectors and named components; the failures
  are in `Algebra.vector_fails` and `Algebra.ofNamed_fails`
-/

namespace Clifford

namespace Values

/-- The coefficients of the vector with the given coordinates. -/
def vector {R : Type*} [CommRing R] (xs : List R) : Values R :=
  (xs.zipIdx.map fun (x, i) => single (.vector i) x).sum

/-- The coefficients of named components, unless no blade has one of the names. -/
def named {K : Type} [Number K] [ExactNumber K] (bladeNamed? : String → Option Blade) :
    List (String × K) → Except (AlgebraError K) (Values K)
  | [] => .ok 0
  | (name, x) :: rest =>
    match bladeNamed? name with
    | none => .error (.unknownBlade name)
    | some b => do
      let f ← named bladeNamed? rest
      pure (single b x + f)

end Values

theorem forall₂_zipIdx {α β : Type} {r : α → β → Prop} {as : List α} {bs : List β}
    (h : List.Forall₂ r as bs) (k : Nat) :
    List.Forall₂ (fun a b => r a.1 b.1 ∧ a.2 = b.2) (as.zipIdx k) (bs.zipIdx k) := by
  induction h generalizing k with
  | nil => exact .nil
  | cons hab _ ih =>
    rw [List.zipIdx_cons, List.zipIdx_cons]
    exact .cons ⟨hab, rfl⟩ (ih (k + 1))

variable {σ K S V : Type} {M : Reading σ K S V} {A : Algebra K S} {s : σ}

variable [Number K]

/-- A component with a name and a value. -/
def Reading.HasNamedValue (M : Reading σ K S V) (s : σ) (c : String × Factor K S)
    (x : String × K) : Prop :=
  c.1 = x.1 ∧ M.HasValue s c.2 x.2

/-- There have to be as many coefficients as basis vectors. -/
theorem Algebra.vector_fails [Target σ K S V] (hopen : M.Open s [])
    {coefficients : List (Factor K S)} (hlength : coefficients.length ≠ A.dimension) :
    (A.vector coefficients : Emission σ K (Multivector K S)).Fails s
      (.dimensionMismatch A.dimension coefficients.length) fun s' => M.Advances s s' := by
  rw [vector, if_pos hlength]
  exact .throw (.refl hopen)

variable [ExactNumber K]

theorem Contribution.values_singleton (b : Blade) (f : Factor K S) (negate : Bool) :
    Contribution.values M s { blade := b, term := [f], negate } =
      Values.single b (signed negate (M.value s f)) := by
  rw [Contribution.values, Contribution.value, Reading.termValue_cons, Reading.termValue_nil,
    mul_one]

namespace Algebra

variable [Target σ K S V]

theorem build_single_gives (hM : M.Sound) (hopen : M.Open s []) (b : Blade) {f : Factor K S}
    (hf : M.Known s f) :
    (A.build [{ blade := b, term := [f] }] : Emission σ K (Multivector K S)).Gives s
      fun r s' => M.Advances s s' ∧ M.Denotes A s' r (Values.single b (M.value s f)) := by
  have hcs : M.Contribute s [{ blade := b, term := [f] }] (Values.single b (M.value s f)) :=
    .singleton (.cons hf .nil) (Contribution.values_singleton b f false)
  refine .mono (build_gives hM hopen hcs) ?_
  rintro r s' ⟨hadv, hr, -⟩
  exact ⟨hadv, hr⟩

/-- A scalar has its value at the scalar blade, and is known to be a unit if it is the literal
one. -/
theorem scalar_gives (hM : M.Sound) (hopen : M.Open s []) {f : Factor K S}
    (hf : M.Known s f) :
    (A.scalar f : Emission σ K (Multivector K S)).Gives s fun r s' =>
      M.Advances s s' ∧ M.Denotes A s' r (Values.scalar (M.value s f)) ∧
        r.knownUnit = f.isOne := by
  refine .bind (.mono (build_single_gives hM hopen 0 hf) ?_)
  rintro r s' ⟨hadv, hr⟩
  exact .pure ⟨hadv, hr.withKnownUnit _, rfl⟩

theorem one_gives (hM : M.Sound) (hopen : M.Open s []) :
    (A.one : Emission σ K (Multivector K S)).Gives s fun r s' =>
      M.Advances s s' ∧ M.Denotes A s' r (Values.scalar 1) ∧ r.knownUnit = true := by
  refine .bind (.mono (build_single_gives hM hopen 0 (Reading.known_number 1)) ?_)
  rintro r s' ⟨hadv, hr⟩
  exact .pure ⟨hadv, hr.withKnownUnit _, rfl⟩

theorem vector_gives (hM : M.Sound) (hopen : M.Open s []) {coefficients : List (Factor K S)}
    {xs : List K} (hxs : List.Forall₂ (M.HasValue s) coefficients xs)
    (hlength : coefficients.length = A.dimension) :
    (A.vector coefficients : Emission σ K (Multivector K S)).Gives s fun r s' =>
      M.Advances s s' ∧ M.Denotes A s' r (Values.vector xs) ∧ r.knownUnit = false := by
  rw [vector, if_neg (not_not.2 hlength)]
  refine build_gives hM hopen ?_
  rw [List.map_eq_flatMap, Values.vector]
  refine .flatMap ((forall₂_zipIdx hxs 0).imp ?_)
  rintro ⟨f, i⟩ ⟨x, _⟩ ⟨hf, rfl⟩
  refine .singleton (.cons hf.known .nil) ?_
  rw [Contribution.values_singleton, hf.value_eq]
  rfl

theorem extend_single_gives (hM : M.Sound) {draft : Draft K V} (hopen : M.Open s draft.storages)
    (hnodup : draft.blades.Nodup) (b : Blade) {f : Factor K S} {x : K} (hf : M.HasValue s f x) :
    (A.extend draft [{ blade := b, term := [f] }] : Emission σ K (Draft K V)).Gives s
      fun draft' s' => M.Extends s s' ∧ M.Open s' draft'.storages ∧ draft'.blades.Nodup ∧
        draft'.values M s' = draft.values M s + Values.single b x := by
  refine extend_gives hM hopen hnodup (.singleton (.cons hf.known .nil) ?_)
  rw [Contribution.values_singleton, hf.value_eq]
  rfl

theorem extendNamed_gives (hM : M.Sound) {draft : Draft K V}
    {components : List (String × Factor K S)} {xs : List (String × K)} {f : Values K}
    (hopen : M.Open s draft.storages) (hnodup : draft.blades.Nodup)
    (hxs : List.Forall₂ (M.HasNamedValue s) components xs)
    (hf : Values.named A.bladeNamed? xs = .ok f) :
    (A.extendNamed draft components : Emission σ K (Draft K V)).Gives s fun draft' s' =>
      M.Extends s s' ∧ M.Open s' draft'.storages ∧ draft'.blades.Nodup ∧
        draft'.values M s' = draft.values M s + f := by
  induction components generalizing draft xs f s with
  | nil =>
    cases hxs
    obtain rfl : 0 = f := Except.ok.inj hf
    refine .pure ⟨.refl M s, hopen, hnodup, ?_⟩
    rw [add_zero]
  | cons c rest ih =>
    obtain ⟨⟨_, x⟩, xs, hcx, hrest, rfl⟩ := List.forall₂_cons_left_iff.1 hxs
    obtain ⟨name, value⟩ := c
    obtain ⟨rfl, hvalue⟩ := hcx
    rw [Values.named] at hf
    rw [extendNamed]
    dsimp only at hf ⊢
    cases hblade : A.bladeNamed? name with
    | none =>
      rw [hblade] at hf
      cases hf
    | some b =>
      rw [hblade] at hf
      dsimp only at hf ⊢
      cases hnamed : Values.named A.bladeNamed? xs with
      | error e =>
        rw [hnamed] at hf
        cases hf
      | ok g =>
        rw [hnamed] at hf
        obtain rfl : Values.single b x + g = f := Except.ok.inj hf
        refine .bind (.mono (extend_single_gives hM hopen hnodup b hvalue) ?_)
        rintro draft₁ s₁ ⟨hext₁, hopen₁, hnodup₁, hvalues₁⟩
        have hrest₁ := hrest.imp fun _ _ h => And.imp_right (hext₁.hasValue) h
        refine .mono (ih hopen₁ hnodup₁ hrest₁ hnamed) ?_
        rintro draft₂ s₂ ⟨hext₂, hopen₂, hnodup₂, hvalues₂⟩
        refine ⟨hext₁.trans hext₂, hopen₂, hnodup₂, ?_⟩
        rw [hvalues₂, hvalues₁, add_assoc]

/-- A name without a blade ends the construction. What was opened for it stays open. -/
theorem extendNamed_fails (hM : M.Sound) {draft : Draft K V}
    {components : List (String × Factor K S)} {xs : List (String × K)} {e : AlgebraError K}
    (hopen : M.Open s draft.storages) (hnodup : draft.blades.Nodup)
    (hxs : List.Forall₂ (M.HasNamedValue s) components xs)
    (he : Values.named A.bladeNamed? xs = .error e) :
    (A.extendNamed draft components : Emission σ K (Draft K V)).Fails s e
      fun s' => M.Advances s s' := by
  induction components generalizing draft xs s with
  | nil =>
    cases hxs
    cases he
  | cons c rest ih =>
    obtain ⟨⟨_, x⟩, xs, hcx, hrest, rfl⟩ := List.forall₂_cons_left_iff.1 hxs
    obtain ⟨name, value⟩ := c
    obtain ⟨rfl, hvalue⟩ := hcx
    rw [Values.named] at he
    rw [extendNamed]
    dsimp only at he ⊢
    cases hblade : A.bladeNamed? name with
    | none =>
      rw [hblade] at he
      obtain rfl := Except.error.inj he
      have hopen' : M.Open s (draft.storages ++ []) := by rwa [List.append_nil]
      exact .throw ⟨.refl M s, hM.abandon hopen'⟩
    | some b =>
      rw [hblade] at he
      dsimp only at he ⊢
      cases hnamed : Values.named A.bladeNamed? xs with
      | ok g =>
        rw [hnamed] at he
        cases he
      | error e' =>
        rw [hnamed] at he
        obtain rfl : e' = e := Except.error.inj he
        refine Emission.Gives.bind_fails (.mono (extend_single_gives hM hopen hnodup b hvalue) ?_)
        rintro draft₁ s₁ ⟨hext₁, hopen₁, hnodup₁, -⟩
        have hrest₁ := hrest.imp fun _ _ h => And.imp_right (hext₁.hasValue) h
        refine .mono (ih hopen₁ hnodup₁ hrest₁ hnamed) ?_
        rintro s₂ hadv
        exact ⟨hext₁.trans hadv.symbols, hadv.ready⟩

theorem ofNamed_gives (hM : M.Sound) (hopen : M.Open s [])
    {components : List (String × Factor K S)} {xs : List (String × K)} {f : Values K}
    (hxs : List.Forall₂ (M.HasNamedValue s) components xs)
    (hf : Values.named A.bladeNamed? xs = .ok f) :
    (A.ofNamed components : Emission σ K (Multivector K S)).Gives s fun r s' =>
      M.Advances s s' ∧ M.Denotes A s' r f ∧ r.knownUnit = false := by
  have hnone : M.Open s (Draft.storages ([] : Draft K V)) := hopen
  refine .bind (.mono (extendNamed_gives hM hnone List.nodup_nil hxs hf) ?_)
  rintro draft s₁ ⟨hext, hopen₁, hnodup, hvalues⟩
  refine .mono (finish_gives hM hopen₁ hnodup) ?_
  rintro r s₂ ⟨hadv, hr, hunit⟩
  have hzero : Draft.values M s ([] : Draft K V) = 0 := rfl
  rw [hvalues, hzero, zero_add] at hr
  exact ⟨⟨hext.trans hadv.symbols, hadv.ready⟩, hr, hunit⟩

theorem ofNamed_fails (hM : M.Sound) (hopen : M.Open s [])
    {components : List (String × Factor K S)} {xs : List (String × K)} {e : AlgebraError K}
    (hxs : List.Forall₂ (M.HasNamedValue s) components xs)
    (he : Values.named A.bladeNamed? xs = .error e) :
    (A.ofNamed components : Emission σ K (Multivector K S)).Fails s e
      fun s' => M.Advances s s' := by
  have hnone : M.Open s (Draft.storages ([] : Draft K V)) := hopen
  exact .bind (extendNamed_fails hM hnone List.nodup_nil hxs he)

end Algebra

end Clifford

import Clifford.Proofs.Algebra.Operation
import Clifford.Proofs.Algebra.Verification
import Clifford.Proofs.Index
import Clifford.Proofs.Target.Calls

/-!
# The blades of results

The blades of a result are those that an operation adds components for, in the order in which it
first does so. Which these are depends on the blades of the operands, on the null vectors of the
metric and on literal zeros, but on no other coefficient. Nothing here asks anything of the target
or of the numbers.

## Main definitions

- `Algebra.Lists` — a multivector of the algebra that lists given blades
- `Algebra.productBlades`, `Algebra.productOfAll` — the blades of products

## Main results

- `Algebra.build_lists` — what is built lists the blades of its contributions
- the lemmas on each operation, named after it and after `lists`
-/

namespace Clifford

variable {σ K S V : Type}

/-! ### What is returned -/

/-- Renaming errors does not change what is returned. -/
theorem Emission.Returns.adapt {K α : Type} {c : Emission σ K α} {Q : α → Prop} (h : c.Returns Q)
    (f : AlgebraError K → AlgebraError K) : Emission.Returns (ExceptT.adapt f c) Q := by
  intro s a ha
  have houtcome : (Emission.outcome (ExceptT.adapt f c) s).1 = (c.outcome s).1.mapError f := rfl
  rw [houtcome] at ha
  cases hresult : (c.outcome s).1 with
  | error e =>
    rw [hresult] at ha
    cases ha
  | ok b =>
    rw [hresult] at ha
    exact Except.ok.inj ha ▸ h s b hresult

theorem Emission.Returns.map {K α β : Type} {c : Emission σ K α} {P : α → Prop} {Q : β → Prop}
    (h : c.Returns P) {f : α → β} (hf : ∀ a, P a → Q (f a)) : (f <$> c).Returns Q := by
  rw [map_eq_pure_bind]
  exact .bind h fun a ha => .pure (hf a ha)

theorem Emission.Returns.of_map {K α β : Type} {c : Emission σ K α} {f : α → β} {Q : β → Prop}
    (h : (f <$> c).Returns Q) : c.Returns fun a => Q (f a) := by
  intro s a ha
  refine h s (f a) ?_
  rw [map_eq_pure_bind, outcome_bind]
  rcases hresult : c.outcome s with ⟨r, s'⟩
  rw [hresult] at ha
  obtain rfl := ha
  rfl

/-- What holds of whatever a computation returns also holds of what it gives. -/
theorem Emission.Gives.and_returns {α : Type} {c : Emission σ K α} {s : σ} {P : α → σ → Prop}
    {Q : α → Prop} (h : c.Gives s P) (hQ : c.Returns Q) : c.Gives s fun a s' => P a s' ∧ Q a := by
  obtain ⟨a, s', hc, hP⟩ := h
  exact ⟨a, s', hc, hP, hQ s a (congrArg Prod.fst hc)⟩

/-- A computation that cannot fail. -/
theorem Emission.Returns.lift {K α : Type} {c : StateM σ α} {Q : α → Prop}
    (h : ∀ s, Yields c s fun a _ => Q a) :
    Emission.Returns (ExceptT.lift c : Emission σ K α) Q := by
  intro s a ha
  obtain rfl := Except.ok.inj ha
  exact h s

/-! ### First occurrences -/

namespace Draft

theorem touch_eraseDups (bs : List Blade) (b : Blade) :
    touch b bs.eraseDups = (bs ++ [b]).eraseDups := by
  rw [List.eraseDups_append, touch]
  by_cases hb : b ∈ bs <;> simp [List.removeAll, hb, List.eraseDups_cons]

theorem foldl_touch_eraseDups (bs cs : List Blade) :
    cs.foldl (fun touched b => touch b touched) bs.eraseDups = (bs ++ cs).eraseDups := by
  induction cs generalizing bs with
  | nil => simp
  | cons c rest ih =>
    rw [List.foldl_cons, touch_eraseDups, ih]
    simp

variable [Number K] [Target σ K S V]

theorem blades_add (nameOf : Blade → String) (c : Contribution K S) (draft : Draft K V) (s : σ) :
    blades ((add nameOf c draft).run s).1 = touch c.blade draft.blades := by
  have hsends : Sends (TargetCall.Adds fun _ => True) (add nameOf c draft) s fun draft' =>
      draft'.blades = touch c.blade draft.blades := add_sends nameOf trivial draft
  obtain ⟨-, -, -, h⟩ := hsends
  exact h

theorem blades_addAll (nameOf : Blade → String) (cs : List (Contribution K S)) (draft : Draft K V)
    (s : σ) : blades ((draft.addAll nameOf cs).run s).1 =
      (cs.map Contribution.blade).foldl (fun touched b => touch b touched) draft.blades := by
  induction cs generalizing draft s with
  | nil => rfl
  | cons c rest ih =>
    have hfirst := blades_add nameOf c draft s
    rw [addAll, List.foldlM_cons, List.map_cons, List.foldl_cons, ← hfirst]
    exact ih _ _

theorem blades_close (draft : Draft K V) (s : σ) :
    ((draft.close (S := S)).run s).1.map Prod.fst = draft.blades := by
  have hsends : Sends (TargetCall.Adds fun _ => True) (draft.close (S := S)) s fun components =>
      components.map Prod.fst = draft.blades := close_sends (fun _ => trivial) draft
  obtain ⟨-, -, -, h⟩ := hsends
  exact h

end Draft

/-! ### Lists of blades -/

/-- A multivector of the algebra with the given blades, in the order of their first occurrence. -/
structure Algebra.Lists (A : Algebra K S) (bs : List Blade) (m : Multivector K S) : Prop where
  /-- It carries the identity of the algebra. -/
  owner : m.owner = A.id
  /-- Its blades are listed as they first occur. -/
  blades_eq : m.blades = bs.eraseDups

namespace Algebra

variable {A : Algebra K S} {m : Multivector K S} {bs : List Blade}

namespace Lists

theorem nodup (h : A.Lists bs m) : m.blades.Nodup := by
  rw [h.blades_eq]
  exact nodup_eraseDups bs

theorem mem (h : A.Lists bs m) {b : Blade} : b ∈ m.blades ↔ b ∈ bs := by
  rw [h.blades_eq, List.mem_eraseDups]

theorem withKnownUnit (h : A.Lists bs m) (knownUnit : Bool) :
    A.Lists bs (m.withKnownUnit knownUnit) :=
  ⟨h.owner, h.blades_eq⟩

theorem self (howner : m.owner = A.id) (hnodup : m.blades.Nodup) : A.Lists m.blades m :=
  ⟨howner, (eraseDups_of_nodup hnodup).symm⟩

/-- Blades that are listed already are listed as they are. -/
theorem of_lists {m' : Multivector K S} (h : A.Lists m'.blades m) (h' : A.Lists bs m') :
    A.Lists bs m where
  owner := h.owner
  blades_eq := by
    rw [h.blades_eq, eraseDups_of_nodup h'.nodup, h'.blades_eq]

theorem zero : A.Lists [] A.zero := ⟨rfl, by simp [Algebra.zero, Multivector.blades]⟩

end Lists

variable [Number K]

theorem markUnit_lists (h : A.Lists bs m) :
    (A.markUnit m : Emission σ K (Multivector K S)).Returns (A.Lists bs) := by
  unfold markUnit
  split
  · split
    · exact .throw
    · exact .pure (h.withKnownUnit true)
  · exact .pure (h.withKnownUnit true)

variable [Target σ K S V]

theorem extend_returns {draft : Draft K V} (hdraft : draft.blades = bs.eraseDups)
    (cs : List (Contribution K S)) :
    (A.extend draft cs : Emission σ K (Draft K V)).Returns fun draft' =>
      draft'.blades = (bs ++ cs.map Contribution.blade).eraseDups := by
  intro s draft' h
  obtain rfl := Except.ok.inj h
  rw [← Draft.foldl_touch_eraseDups, ← hdraft]
  exact Draft.blades_addAll A.cellName cs draft s

theorem finish_lists {draft : Draft K V} (hdraft : draft.blades = bs.eraseDups) :
    (A.finish draft : Emission σ K (Multivector K S)).Returns (A.Lists bs) := by
  intro s m h
  obtain rfl := Except.ok.inj h
  exact ⟨rfl, (Draft.blades_close draft s).trans hdraft⟩

/-- **What is built lists the blades of its contributions.** -/
theorem build_lists (cs : List (Contribution K S)) :
    (A.build cs : Emission σ K (Multivector K S)).Returns
      (A.Lists (cs.map Contribution.blade)) := by
  have hempty : Draft.blades ([] : Draft K V) = ([] : List Blade).eraseDups := by
    simp [Draft.blades]
  exact .bind (extend_returns hempty cs) fun draft hdraft => finish_lists hdraft

end Algebra

/-! ### Elements and linear operations -/

namespace Multivector

variable (m : Multivector K S)

theorem map_blade_signed (flip : Blade → Bool) :
    (m.signed flip).map Contribution.blade = m.blades := by
  simp [signed, blades, Function.comp_def]

theorem map_blade_scaled (x : Factor K S) : (m.scaled x).map Contribution.blade = m.blades := by
  simp [scaled, blades, Function.comp_def]

theorem map_blade_filter (keep : Blade → Bool) :
    ((m.signed fun _ => false).filter fun c => keep c.blade).map Contribution.blade =
      m.blades.filter keep := by
  rw [← m.map_blade_signed fun _ => false, List.filter_map]
  rfl

end Multivector

namespace Algebra

variable [Number K] [Target σ K S V] {A : Algebra K S} {m a b : Multivector K S}
  {ms : List (Multivector K S)}

theorem one_lists : (A.one : Emission σ K (Multivector K S)).Returns (A.Lists [0]) :=
  .bind (build_lists _) fun _ h => .pure (h.withKnownUnit _)

theorem scalar_lists (x : Factor K S) :
    (A.scalar x : Emission σ K (Multivector K S)).Returns (A.Lists [0]) :=
  .bind (build_lists _) fun _ h => .pure (h.withKnownUnit _)

theorem pseudoscalar_lists :
    (A.pseudoscalar : Emission σ K (Multivector K S)).Returns (A.Lists [A.fullBlade]) :=
  .bind (build_lists _) fun _ h => .pure (h.withKnownUnit _)

theorem vector_lists (coefficients : List (Factor K S)) :
    (A.vector coefficients : Emission σ K (Multivector K S)).Returns
      (A.Lists ((List.range A.dimension).map Blade.vector)) := by
  unfold vector
  split
  · exact .throw
  · rename_i hlength
    have hblades : (List.range A.dimension).map Blade.vector =
        (coefficients.zipIdx.map fun c =>
          ({ blade := .vector c.2, term := [c.1] } : Contribution K S)).map Contribution.blade := by
      rw [← not_not.1 hlength, List.range_eq_range', ← List.zipIdx_map_snd, List.map_map,
        List.map_map]
      rfl
    rw [hblades]
    exact build_lists _

theorem basisVectors_lists :
    (A.basisVectors : Emission σ K (List (Multivector K S))).Returns fun ms =>
      List.Forall₂ (fun i m => A.Lists [Blade.vector i] m) (List.range A.dimension) ms := by
  have hvectors : ∀ (metric : Metric K S) (k : Nat),
      ((metric.zipIdx k).mapM fun entry => do
        let m ← A.build [{ blade := .vector entry.2, term := [.number 1] }]
        pure (m.withKnownUnit entry.1.isOne) : Emission σ K (List (Multivector K S))).Returns
          fun ms => List.Forall₂ (fun i m => A.Lists [Blade.vector i] m)
            (List.range' k metric.length) ms := by
    intro metric
    induction metric with
    | nil => exact fun k => .pure .nil
    | cons square rest ih =>
      intro k
      rw [List.zipIdx_cons, List.mapM_cons]
      refine .bind (.bind (build_lists _) fun m hm => .pure (hm.withKnownUnit _)) fun m hm => ?_
      refine .bind (ih (k + 1)) fun ms hms => .pure ?_
      exact .cons hm hms
  rw [List.range_eq_range']
  exact hvectors A.metric 0

theorem extendNamed_returns {draft : Draft K V} {bs : List Blade}
    (hdraft : draft.blades = bs.eraseDups) (components : List (String × Factor K S)) :
    (A.extendNamed draft components : Emission σ K (Draft K V)).Returns fun draft' =>
      draft'.blades = (bs ++ components.filterMap fun c => A.bladeNamed? c.1).eraseDups := by
  induction components generalizing draft bs with
  | nil =>
    refine .pure ?_
    simpa using hdraft
  | cons c rest ih =>
    obtain ⟨name, value⟩ := c
    unfold extendNamed
    cases hblade : A.bladeNamed? name with
    | none => exact .throw
    | some blade =>
      refine .bind (extend_returns hdraft _) fun draft' hdraft' => (ih hdraft').mono ?_
      intro draft'' h
      simpa [List.filterMap_cons, hblade] using h

/-- Named components are listed in the order in which they are given. -/
theorem ofNamed_lists (components : List (String × Factor K S)) :
    (A.ofNamed components : Emission σ K (Multivector K S)).Returns
      (A.Lists (components.filterMap fun c => A.bladeNamed? c.1)) := by
  have hempty : Draft.blades ([] : Draft K V) = ([] : List Blade).eraseDups := by
    simp [Draft.blades]
  exact .bind (extendNamed_returns hempty components) fun draft h => finish_lists h

theorem resign_lists (flip : Blade → Bool) :
    (A.resign flip m : Emission σ K (Multivector K S)).Returns (A.Lists m.blades) := by
  refine .after fun _ => .bind (build_lists _) fun r hr => .pure ?_
  rw [m.map_blade_signed] at hr
  exact hr.withKnownUnit _

theorem scale_lists (x : Factor K S) :
    (A.scale x m : Emission σ K (Multivector K S)).Returns
      (A.Lists (if x.isZero then [] else m.blades)) := by
  refine .after fun _ => ?_
  split
  · exact .pure .zero
  · rw [← m.map_blade_scaled x]
    exact .after fun _ => build_lists _

theorem extract_lists (keep : Blade → Bool) :
    (A.extract keep m : Emission σ K (Multivector K S)).Returns
      (A.Lists (m.blades.filter keep)) := by
  rw [← m.map_blade_filter]
  exact .after fun _ => build_lists _

theorem minus_lists :
    (A.minus a b : Emission σ K (Multivector K S)).Returns (A.Lists (a.blades ++ b.blades)) := by
  rw [← a.map_blade_signed fun _ => false, ← b.map_blade_signed fun _ => true, ← List.map_append]
  exact .after fun _ => .after fun _ => .after fun _ => build_lists _

omit [Number K] [Target σ K S V] in
theorem check_returns :
    (A.check m : Emission σ K Unit).Returns fun _ => m.owner = A.id := by
  rw [check]
  split
  · rename_i howns
    exact .pure (by simpa [owns] using howns)
  · exact .throw

omit [Number K] [Target σ K S V] in
theorem forM_check_returns :
    (ms.forM A.check : Emission σ K PUnit).Returns fun _ => ∀ m ∈ ms, m.owner = A.id := by
  induction ms with
  | nil => exact .pure nofun
  | cons m rest ih =>
    refine .bind check_returns fun _ howner => ih.mono fun _ howners => ?_
    exact List.forall_mem_cons.2 ⟨howner, howners⟩

/-- A single operand is returned as it is, so it has to list its blades once. -/
theorem plus_lists (hms : ∀ m ∈ ms, m.blades.Nodup) :
    (A.plus ms : Emission σ K (Multivector K S)).Returns
      (A.Lists (ms.flatMap Multivector.blades)) := by
  refine .bind forM_check_returns fun _ howners => ?_
  rcases ms with _ | ⟨m, _ | ⟨m', rest⟩⟩
  · exact .pure .zero
  · rw [List.flatMap_singleton]
    exact .pure (.self (howners m List.mem_cons_self) (hms m List.mem_cons_self))
  · have hblades : (m :: m' :: rest).flatMap Multivector.blades =
        ((m :: m' :: rest).flatMap fun m => m.signed fun _ => false).map Contribution.blade := by
      rw [List.map_flatMap]
      simp only [Multivector.map_blade_signed]
    rw [hblades]
    exact .after fun _ => build_lists _

/-! ### Products -/

omit [Target σ K S V] in
/-- The blades of a product of multivectors with the given blades. -/
def productBlades (A : Algebra K S) (kind : ProductKind) (as bs : List Blade) : List Blade :=
  as.flatMap fun a => bs.filterMap fun b =>
    if kind.includes a b && (A.metric.factors? (a &&& b)).isSome then some (a ^^^ b) else none

/-- The blades of a product of several multivectors with the given blades, from the left. -/
def productOfAll (A : Algebra K S) (kind : ProductKind) : List (List Blade) → List Blade
  | [] => [0]
  | first :: rest => rest.foldl (fun as bs => A.productBlades kind as.eraseDups bs) first

omit [Target σ K S V] in
theorem map_blade_productContributions (kind : ProductKind) (a b : Multivector K S) :
    (A.productContributions kind a b).map Contribution.blade =
      A.productBlades kind a.blades b.blades := by
  rw [productContributions, List.map_flatMap, productBlades, Multivector.blades,
    Multivector.blades, List.flatMap_map]
  refine List.flatMap_congr fun left _ => ?_
  rw [List.filterMap_map, List.map_filterMap]
  refine List.filterMap_congr fun right _ => ?_
  by_cases hkind : kind.includes left.1 right.1 = true
  · cases hsquares : A.metric.factors? (left.1 &&& right.1) <;>
      simp [pairContribution?, hkind, hsquares]
  · simp [hkind]

theorem mul_lists (kind : ProductKind) :
    (A.mul kind a b : Emission σ K (Multivector K S)).Returns
      (A.Lists (A.productBlades kind a.blades b.blades)) := by
  rw [← map_blade_productContributions]
  refine .after fun _ => .after fun _ => .after fun _ => ?_
  exact .bind (build_lists _) fun _ hr => .pure (hr.withKnownUnit _)

theorem mulAll_lists (kind : ProductKind) (hms : ∀ m ∈ ms, m.blades.Nodup) :
    (A.mulAll kind ms : Emission σ K (Multivector K S)).Returns
      (A.Lists (A.productOfAll kind (ms.map Multivector.blades))) := by
  -- What was multiplied so far lists the blades of that product.
  have hfold : ∀ (rest : List (Multivector K S)) (bs : List Blade) (first : Multivector K S),
      A.Lists bs first →
        (rest.foldlM (fun product m => A.mul kind product m) first :
          Emission σ K (Multivector K S)).Returns
            (A.Lists ((rest.map Multivector.blades).foldl
              (fun as bs => A.productBlades kind as.eraseDups bs) bs)) := by
    intro rest
    induction rest with
    | nil => exact fun bs first hfirst => .pure hfirst
    | cons m rest ih =>
      intro bs first hfirst
      rw [List.foldlM_cons]
      refine .bind (mul_lists kind) fun product hproduct => ?_
      rw [hfirst.blades_eq] at hproduct
      exact ih _ product hproduct
  cases ms with
  | nil => exact one_lists
  | cons first rest =>
    refine .bind check_returns fun _ howner => ?_
    exact hfold rest _ first (.self howner (hms first List.mem_cons_self))

/-! ### Norms, duality and rotors -/

theorem inverse_lists :
    (A.inverse m : Emission σ K (Multivector K S)).Returns (A.Lists m.blades) := by
  have hbyReverse : ∀ square : Factor K S,
      (A.inverseByReverse m square : Emission σ K (Multivector K S)).Returns
        (A.Lists m.blades) := by
    intro square
    refine .after fun factor => (build_lists _).mono fun r hr => ?_
    simpa [Multivector.blades, Function.comp_def] using hr
  refine .after fun _ => ?_
  by_cases hunit : m.knownUnit = true
  · rw [if_pos hunit]
    exact .after fun _ => resign_lists _
  rw [if_neg hunit]
  refine .after fun square => ?_
  by_cases hzero : square.isZero = true
  · rw [if_pos hzero]
    exact .throw_bind
  rw [if_neg hzero]
  refine .after fun _ => ?_
  split
  · rename_i b value hcomponents
    have hblades : m.blades = [b] := by simp [Multivector.blades, hcomponents]
    split
    · rw [hblades]
      exact .after fun _ => build_lists _
    · exact hbyReverse square
  · exact hbyReverse square

/-- The blade of the only component with a literal other than zero is one of the operand. -/
theorem normalizeComponent_lists (b : Blade) :
    (A.normalizeComponent b (m.value b) : Emission σ K (Multivector K S)).Returns fun r =>
      b ∈ m.blades ∧ A.Lists [b] r := by
  unfold normalizeComponent
  by_cases hzero : (m.value b).isZero = true
  · rw [if_pos hzero]
    exact .throw_bind
  rw [if_neg hzero]
  have hb : b ∈ m.blades := by
    by_contra hb
    rw [Multivector.value, Multivector.get?, lookup_eq_none_of_notMem hb] at hzero
    exact hzero (by simp [Factor.isZero, Number.isZero])
  refine .after fun _ => .bind (build_lists _) fun r hr => (markUnit_lists hr).mono fun r hr => ?_
  exact ⟨hb, hr⟩

/-- What a multivector of unit norm may be made of: itself, if this is known; a single component,
if it is the only one; or all components, unless the factor comes to a literal zero. -/
theorem normalize_lists (hm : m.blades.Nodup) :
    (A.normalize m : Emission σ K (Multivector K S)).Returns fun r =>
      A.Lists m.blades r ∨ A.Lists [] r ∨ ∃ b ∈ m.blades, A.Lists [b] r := by
  refine .bind check_returns fun _ howner => ?_
  by_cases hunit : m.knownUnit = true
  · rw [if_pos hunit]
    exact .pure (.inl (.self howner hm))
  rw [if_neg hunit]
  refine .after fun _ => ?_
  split
  · exact (normalizeComponent_lists _).mono fun r h => .inr (.inr ⟨_, h⟩)
  refine .after fun square => ?_
  by_cases hzero : square.isZero = true
  · rw [if_pos hzero]
    exact .throw_bind
  rw [if_neg hzero]
  refine .after fun _ => .after fun _ => .after fun factor => ?_
  refine .bind (scale_lists factor) fun r hr => (markUnit_lists hr).mono fun r hr => ?_
  by_cases hfactor : factor.isZero = true
  · rw [if_pos hfactor] at hr
    exact .inr (.inl hr)
  · rw [if_neg hfactor] at hr
    exact .inl hr

theorem dual_lists :
    (A.dual m : Emission σ K (Multivector K S)).Returns
      (A.Lists (A.productBlades .leftContraction m.blades [A.fullBlade])) := by
  refine .after fun _ => .bind pseudoscalar_lists fun p hp => ?_
  have hfull : p.blades = [A.fullBlade] := hp.blades_eq.trans (by simp [List.eraseDups_cons])
  have hinverse : Emission.Returns (ExceptT.adapt duality (A.inverse p) :
      Emission σ K (Multivector K S)) (A.Lists p.blades) := inverse_lists.adapt duality
  refine .bind hinverse fun i hi => ?_
  have hblades : i.blades = [A.fullBlade] := by
    rw [hi.blades_eq, hfull]
    simp [List.eraseDups_cons]
  rw [← hblades]
  exact mul_lists .leftContraction

theorem undual_lists :
    (A.undual m : Emission σ K (Multivector K S)).Returns
      (A.Lists (A.productBlades .leftContraction m.blades [A.fullBlade])) := by
  refine .after fun _ => .bind pseudoscalar_lists fun p hp => ?_
  have hfull : p.blades = [A.fullBlade] := hp.blades_eq.trans (by simp [List.eraseDups_cons])
  rw [← hfull]
  exact mul_lists .leftContraction

theorem exp_lists (hm : m.blades.Nodup) :
    (A.exp m : Emission σ K (Multivector K S)).Returns (A.Lists (0 :: m.blades)) := by
  refine .after fun _ => .after fun square => ?_
  split
  · refine .bind one_lists fun one hone => ?_
    have hnodup : ∀ m' ∈ [one, m], m'.blades.Nodup :=
      List.forall_mem_cons.2 ⟨hone.nodup, List.forall_mem_singleton.2 hm⟩
    refine .bind (plus_lists hnodup) fun r hr => .pure ?_
    have hblades : [one, m].flatMap Multivector.blades = 0 :: m.blades := by
      simp [hone.blades_eq, List.eraseDups_cons]
    rw [hblades] at hr
    exact hr.withKnownUnit _
  · refine .after fun _ => .after fun _ => .after fun _ => .after fun _ => .after fun weight => ?_
    refine .bind (build_lists _) fun r hr => markUnit_lists ?_
    rwa [List.map_cons, m.map_blade_scaled] at hr

theorem log_lists :
    (A.log m : Emission σ K (Multivector K S)).Returns fun r =>
      A.Lists (m.blades.filter fun b => b.grade == 2) r ∨ A.Lists [] r := by
  refine .after fun _ => .bind (extract_lists _) fun bivector hbivector => ?_
  refine .after fun norm => ?_
  by_cases hzero : norm.isZero = true
  · rw [if_pos hzero]
    exact .throw_bind
  rw [if_neg hzero]
  refine .after fun _ => .after fun _ => .after fun factor => ?_
  refine (scale_lists factor).mono fun r hr => ?_
  by_cases hfactor : factor.isZero = true
  · rw [if_pos hfactor] at hr
    exact .inr hr
  · rw [if_neg hfactor] at hr
    exact .inl (hr.of_lists hbivector)

theorem slerpAt_lists (circle : Slerp K S) (t : Factor K S) :
    (A.slerpAt circle t : Emission σ K (Multivector K S)).Returns
      (A.Lists (circle.first.blades ++ circle.last.blades)) := by
  refine .after fun _ => .after fun _ => .after fun first => .after fun last => ?_
  refine .bind (build_lists _) fun r hr => markUnit_lists ?_
  rwa [List.map_append, Multivector.map_blade_scaled, Multivector.map_blade_scaled] at hr

theorem outermorphism_lists (matrix : SparseMatrix K S) :
    (A.outermorphism m matrix : Emission σ K (Multivector K S)).Returns fun r =>
      matrix.length ≤ A.dimension ∧ A.Lists ((m.components.flatMap fun (b, value) =>
        matrix.placements value b.positions 0 0 []).map Contribution.blade) r := by
  refine .after fun _ => ?_
  by_cases hlength : A.dimension < matrix.length
  · rw [if_pos hlength]
    exact .throw_bind
  · rw [if_neg hlength]
    refine .after fun _ => (build_lists _).mono fun r hr => ?_
    exact ⟨not_lt.1 hlength, hr⟩

end Algebra

end Clifford

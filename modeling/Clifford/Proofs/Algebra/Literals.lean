import Clifford.Proofs.Algebra.Blades
import Clifford.Proofs.Algebra.Membership
import Clifford.Proofs.Target.Numbers

/-!
# Norms of numbers

Where the metric and all coefficients are numbers, so are the squared norm and the norm, whatever
the target is. The tests for literal zeros therefore see the values.

## Main results

- `Algebra.normSquared_number`, `Algebra.norm_number` — norms of numbers are numbers
- `Algebra.normSquared_of_null` — a squared norm of numbers that is zero is the literal zero
-/

namespace Clifford

variable {σ K S V : Type} [Number K] {A : Algebra K S} {m : Multivector K S} {s : σ}

theorem Factor.isNumber_iff {f : Factor K S} : f.isNumber = true ↔ ∃ x, f = .number x := by
  cases f <;> simp [isNumber]

theorem Multivector.isNumber_value (hnumbers : ∀ c ∈ m.components, c.2.isNumber = true) (b : Blade) :
    (m.value b).isNumber = true := by
  rw [value, get?]
  cases hlookup : m.components.lookup b with
  | none => rfl
  | some value => exact hnumbers (b, value) (mem_of_lookup hlookup)

namespace Reading

/-- A number that has the value zero is a literal zero. -/
theorem isZero_of_value [ExactNumber K] {M : Reading σ K S V} {f : Factor K S}
    (hnumber : f.isNumber = true) (hvalue : M.value s f = 0) : f.isZero = true := by
  obtain ⟨x, rfl⟩ := Factor.isNumber_iff.1 hnumber
  exact Number.isZero_iff.2 hvalue

theorem known_numeric_iff {ordered : σ → Prop} {f : Factor K S} :
    (numeric ordered : Reading σ K S V).Known s f ↔ f.isNumber = true :=
  known_numeric.trans Factor.isNumber_iff.symm

/-- An algebra of numbers has a metric with values, in any reading. -/
theorem ready_of_numbers {M : Reading σ K S V} (hopen : M.Open s [])
    (hmetric : ∀ square ∈ A.metric, square.isNumber = true) :
    M.Ready A s (M.squares s A.metric) where
  ready := hopen
  squares := by
    refine squares_spec fun square hsquare => ?_
    obtain ⟨x, rfl⟩ := Factor.isNumber_iff.1 (hmetric square hsquare)
    exact known_number x

/-- Any target is ready for operations on numbers. -/
theorem ready_numeric (hmetric : ∀ square ∈ A.metric, square.isNumber = true) :
    (numeric fun _ => True : Reading σ K S V).Ready A s
      ((numeric fun _ => True : Reading σ K S V).squares s A.metric) :=
  ready_of_numbers ⟨rfl, trivial⟩ hmetric

theorem proper_numeric (hnodup : m.blades.Nodup)
    (hnumbers : ∀ c ∈ m.components, c.2.isNumber = true) :
    (numeric fun _ => True : Reading σ K S V).Proper s m :=
  ⟨hnodup, fun c hc => known_numeric_iff.2 (hnumbers c hc)⟩

variable [Target σ K S V]

/-- Nothing need be asked of a target that is only given numbers. -/
theorem steady_numbers : (numeric fun _ => True : Reading σ K S V).Steady :=
  steady_numeric (fun _ _ => trivial) fun _ _ _ => trivial

omit [Target σ K S V] in
/-- What has a value although no symbol has one is returned as a number. -/
theorem Ends.returns_number {p : Prop} {c : Emission σ K (Factor K S)}
    (h : ∀ s, (numeric fun _ => True : Reading σ K S V).Ends p c s fun r s' =>
      (numeric fun _ => True : Reading σ K S V).Known s' r) :
    c.Returns fun r => r.isNumber = true :=
  .of_ends fun s => (h s).mono (fun hp => hp) fun _ _ _ hr => known_numeric_iff.1 hr

end Reading

namespace Algebra

variable [Target σ K S V]

theorem normSquared_number (hmetric : ∀ square ∈ A.metric, square.isNumber = true)
    (hnodup : m.blades.Nodup) (hnumbers : ∀ c ∈ m.components, c.2.isNumber = true) :
    (A.normSquared m : Emission σ K (Factor K S)).Returns fun r => r.isNumber = true :=
  Reading.Ends.returns_number fun _ => normSquared_known Reading.steady_numbers
    (Reading.ready_numeric hmetric) (Reading.proper_numeric hnodup hnumbers)

/-- **A squared norm of numbers that is zero is the literal zero**, which operations test for. -/
theorem normSquared_of_null [ExactNumber K] {M : Reading σ K S V} {q : Nat → K} {f : Values K}
    (hM : M.Sound) (hA : M.Ready A s q) (hm : M.Denotes A s m f)
    (hmetric : ∀ square ∈ A.metric, square.isNumber = true)
    (hnumbers : ∀ c ∈ m.components, c.2.isNumber = true) (hunit : m.knownUnit = false)
    (hzero : Values.normSquared q f = 0) :
    (A.normSquared m : Emission σ K (Factor K S)).Gives s fun r s' =>
      M.Advances s s' ∧ r.isZero = true := by
  refine .mono ((normSquared_of_unmarked hM hA hm hunit).and_returns
    (normSquared_number hmetric hm.nodup hnumbers)) ?_
  intro r s' ⟨⟨hadv, hvalue⟩, hnumber⟩
  exact ⟨hadv, Reading.isZero_of_value hnumber (hvalue.value_eq.trans hzero)⟩

theorem norm_number (hmetric : ∀ square ∈ A.metric, square.isNumber = true)
    (hnodup : m.blades.Nodup) (hnumbers : ∀ c ∈ m.components, c.2.isNumber = true) :
    (A.norm m : Emission σ K (Factor K S)).Returns fun r => r.isNumber = true :=
  Reading.Ends.returns_number fun _ => norm_known Reading.steady_numbers
    (Reading.ready_numeric hmetric) (Reading.proper_numeric hnodup hnumbers)

end Algebra

end Clifford

import Clifford.Proofs.Script.Work
import Clifford.Proofs.Algebra.Chain

/-!
# Runs of scripts

Whatever the target, each step of a script of polynomial operations makes what the step means, or
fails as the meaning does. By induction on the script, all results have their meanings.

## Main results

- `UnaryOperation.perform_gives`, `BinaryOperation.perform_gives` — the operations
- `Step.perform_meets` — a step makes what it means
- `Workspace.Means.run` — a run makes what the script means
-/

namespace Clifford

variable {σ K S V : Type} [Number K] [ExactNumber K] {M : Reading σ K S V} {A : Algebra K S}
  {q : Nat → K} {s : σ} {meanings : List (Meaning K)} {w : Workspace σ K S}
  {a b m : Multivector K S} {ms : List (Multivector K S)} {f g : Values K} {fs : List (Values K)}

theorem Reading.denotes_of_represents (hms : List.Forall₂ (M.Represents A s) ms fs) :
    List.Forall₂ (M.Denotes A s) ms fs :=
  hms.imp fun _ _ h => h.toDenotes

theorem Reading.unital_of_represents (hms : List.Forall₂ (M.Represents A s) ms fs)
    (hunit : ∀ m ∈ ms, m.knownUnit = true) : ∀ f ∈ fs, f.Unital := by
  induction hms with
  | nil => nofun
  | cons hm _ ih =>
    rintro f (_ | ⟨_, hrest⟩)
    · exact hm.unital (hunit _ List.mem_cons_self)
    · exact ih (fun m hm => hunit m (List.mem_cons_of_mem _ hm)) f hrest

namespace Reading

variable {c : Emission σ K (Multivector K S)}

/-- Nothing is claimed of the norm of a result that is not stated to be a unit. -/
theorem represents_of_plain
    (h : c.Gives s fun r s' => M.Advances s s' ∧ M.Denotes A s' r f ∧ r.knownUnit = false) :
    c.Gives s fun r s' => M.Advances s s' ∧ M.Represents A s' r f := by
  refine .mono h ?_
  rintro r s' ⟨hadv, hr, hunit⟩
  refine ⟨hadv, hr, fun hknown => ?_⟩
  rw [hunit] at hknown
  cases hknown

theorem represents_of_flipped {flip : Blade → Bool} (hm : M.Represents A s m f)
    (h : c.Gives s fun r s' => M.Advances s s' ∧ M.Denotes A s' r (Values.flipped flip f) ∧
      r.knownUnit = m.knownUnit) :
    c.Gives s fun r s' => M.Advances s s' ∧ M.Represents A s' r (Values.flipped flip f) := by
  refine .mono h ?_
  rintro r s' ⟨hadv, hr, hunit⟩
  exact ⟨hadv, hr, fun hknown => (hm.unital (hunit ▸ hknown)).flipped flip⟩

end Reading

namespace Step

theorem making_meets (hw : w.Means M A q meanings) {action : Emission σ K (Multivector K S)}
    (h : action.Gives w.target fun r s' => M.Advances w.target s' ∧ M.Represents A s' r f) :
    Work.Meets M A q meanings (making action) w (.ok (.multivector f))
      (StepResult.Means M A q) :=
  .map (.emission hw h) fun _ _ _ hr => .multivector hr

theorem making_fails (hw : w.Means M A q meanings) {action : Emission σ K (Multivector K S)}
    {e : AlgebraError K} (h : action.Fails w.target e fun s' => M.Advances w.target s') :
    Work.Meets M A q meanings (making action) w (.error (.failed e))
      (StepResult.Means M A q) :=
  Work.Meets.map (r := fun s => M.Represents A s) (ψ := Meaning.multivector)
    (.emission_fails hw h) fun _ _ _ hr => .multivector hr

theorem measuring_meets (hw : w.Means M A q meanings) {action : Emission σ K (Factor K S)} {x : K}
    (h : action.Gives w.target fun r s' => M.Advances w.target s' ∧ M.HasValue s' r x) :
    Work.Meets M A q meanings (measuring action) w (.ok (.scalar x))
      (StepResult.Means M A q) :=
  .map (.emission hw h) fun _ _ _ hr => .scalar hr

end Step

variable [Target σ K S V]

/-! ### Operations -/

theorem UnaryOperation.perform_gives [Ord S] (hM : M.Sound) (hopen : M.Open s [])
    (hm : M.Represents A s m f) {op : UnaryOperation} (hop : op.isPolynomial = true) :
    (op.perform A m : Emission σ K (Multivector K S)).Gives s fun r s' =>
      M.Advances s s' ∧ M.Represents A s' r (op.act f) := by
  have hm' := hm.toDenotes
  cases op with
  | negate =>
    show Emission.Gives _ s fun r s' =>
      M.Advances s s' ∧ M.Represents A s' r (Values.flipped (fun _ => true) f)
    exact Reading.represents_of_flipped hm (Algebra.negate_gives hM hopen hm')
  | gradeInvolution =>
    exact Reading.represents_of_flipped hm (Algebra.gradeInvolution_gives hM hopen hm')
  | reverse =>
    exact Reading.represents_of_flipped hm (Algebra.reverse_gives hM hopen hm')
  | conjugate => exact Reading.represents_of_flipped hm (Algebra.conjugate_gives hM hopen hm')
  | extractGrade k =>
    exact Reading.represents_of_plain (Algebra.extract_gives hM hopen hm' fun b => b.grade == k)
  | extract blades =>
    exact Reading.represents_of_plain
      (Algebra.extract_gives hM hopen hm' fun b => blades.contains b)
  | inverse | normalize | dual | undual | exp | log => cases hop

theorem BinaryOperation.perform_gives (hM : M.Sound) (hA : M.Ready A s q)
    (ha : M.Represents A s a f) (hb : M.Represents A s b g) {op : BinaryOperation}
    (hop : op.isPolynomial = true) :
    (op.perform A a b : Emission σ K (Multivector K S)).Gives s fun r s' =>
      M.Advances s s' ∧ M.Represents A s' r (op.act q f g) := by
  cases op with
  | minus =>
    exact Reading.represents_of_plain
      (Algebra.minus_gives hM hA.ready ha.toDenotes hb.toDenotes)
  | mul kind =>
    refine .mono (Algebra.mul_gives hM hA ha.toDenotes hb.toDenotes kind) ?_
    rintro r s' ⟨hadv, hr, hunit⟩
    refine ⟨hadv, hr, fun h => ?_⟩
    rw [hunit, Bool.and_eq_true, Bool.and_eq_true] at h
    exact (ha.unital h.1.2).convolve (Values.kernel_zero_zero kind q) (hb.unital h.2)
  | sandwichProduct =>
    refine .mono (Algebra.sandwichProduct_gives hM hA ha.toDenotes hb.toDenotes) ?_
    rintro r s' ⟨hadv, hr, hunit⟩
    exact ⟨hadv, hr, fun h => (ha.unital (hunit h).1).conjugate (hb.unital (hunit h).2)⟩
  | reflect => cases hop

namespace Algebra

theorem plus_represents (hM : M.Sound) (hopen : M.Open s [])
    (hms : List.Forall₂ (M.Represents A s) ms fs) :
    (A.plus ms : Emission σ K (Multivector K S)).Gives s fun r s' =>
      M.Advances s s' ∧ M.Represents A s' r fs.sum := by
  refine .mono (plus_gives hM hopen (Reading.denotes_of_represents hms)) ?_
  rintro r s' ⟨hadv, hr, hunit⟩
  refine ⟨hadv, hr, fun h => ?_⟩
  obtain rfl := hunit h
  obtain ⟨f, fs, hm, hnil, rfl⟩ := List.forall₂_cons_left_iff.1 hms
  cases hnil
  rw [List.sum_singleton]
  exact hm.unital h

theorem mulAll_represents (hM : M.Sound) (hA : M.Ready A s q) (kind : ProductKind)
    (hms : List.Forall₂ (M.Represents A s) ms fs) :
    (A.mulAll kind ms : Emission σ K (Multivector K S)).Gives s fun r s' =>
      M.Advances s s' ∧ M.Represents A s' r (kind.product q fs) := by
  refine .mono (mulAll_gives hM hA kind (Reading.denotes_of_represents hms)) ?_
  rintro r s' ⟨hadv, hr, hunit⟩
  exact ⟨hadv, hr, fun h =>
    Values.Unital.product kind (Reading.unital_of_represents hms (hunit h))⟩

theorem sandwichChain_represents [Ord S] [Std.LawfulEqOrd S] (hM : M.Sound)
    (htolerance : A.settings.unitTolerance? = none) (hA : M.Ready A s q)
    (hms : List.Forall₂ (M.Represents A s) ms fs) (hm : M.Represents A s m g) :
    (A.sandwichChain ms m : Emission σ K (Multivector K S)).Gives s fun r s' =>
      M.Advances s s' ∧ M.Represents A s' r (fs.foldr (Values.conjugate q) g) := by
  refine .mono (sandwichChain_gives hM htolerance hA (Reading.denotes_of_represents hms)
    hm.toDenotes) ?_
  rintro r s' ⟨hadv, hr, hunit⟩
  exact ⟨hadv, hr, fun h => Values.Unital.foldr_conjugate
    (Reading.unital_of_represents hms (hunit h).2) (hm.unital (hunit h).1)⟩

end Algebra

/-! ### Steps -/

namespace Step

variable {I : Interpretation K} {input : InputSource σ K S}

variable [Ord S]

theorem vector_meets (hM : M.Sound) (hI : I.Fits M A input) (hw : w.Means M A I.squares meanings)
    (coefficients : List (FactorRef K)) :
    Work.Meets M A I.squares meanings ((vector coefficients).perform A input) w
      (I.step meanings (.vector coefficients)) (StepResult.Means M A I.squares) := by
  refine .bind (Work.factors_meet hI hw coefficients) ?_
  rintro fs xs w' - hw' - hxs
  have hopen := hw'.ready.ready
  have hlength : fs.length = xs.length := hxs.length_eq
  by_cases hfits : xs.length = I.dimension
  · rw [if_neg (not_not.2 hfits)]
    refine making_meets hw' (Reading.represents_of_plain ?_)
    exact Algebra.vector_gives hM hopen hxs (by rw [hlength, hfits, hI.dimension_eq])
  · rw [if_pos hfits]
    have hmismatch : fs.length ≠ A.dimension := by
      rw [hlength, hI.dimension_eq]
      exact hfits
    have hfails := Algebra.vector_fails (A := A) hopen hmismatch
    rw [hlength, hI.dimension_eq] at hfails
    exact making_fails hw' hfails

theorem named_meets (hM : M.Sound) (hI : I.Fits M A input) (hw : w.Means M A I.squares meanings)
    (components : List (String × FactorRef K)) :
    Work.Meets M A I.squares meanings ((named components).perform A input) w
      (I.step meanings (.named components)) (StepResult.Means M A I.squares) := by
  refine .bind (.mapM (r := M.HasNamedValue)
    (fun _ _ _ _ hext h => And.imp_right hext.hasValue h) (fun c _ w₁ hw₁ => ?_) hw) ?_
  · refine .bind (Work.factor_meets hI hw₁ c.2) ?_
    rintro f x w₂ - hw₂ - hx
    exact .pure hw₂ ⟨rfl, hx⟩
  · rintro cs xs w' - hw' - hxs
    have hopen := hw'.ready.ready
    rw [← hI.bladeNamed?_eq]
    cases hnamed : Values.named A.bladeNamed? xs with
    | ok f =>
      refine making_meets hw' (Reading.represents_of_plain ?_)
      exact Algebra.ofNamed_gives hM hopen hxs hnamed
    | error e => exact making_fails hw' (Algebra.ofNamed_fails hM hopen hxs hnamed)

theorem outermorphism_meets (hM : M.Sound) (hI : I.Fits M A input)
    (hw : w.Means M A I.squares meanings) (m : MvRef) (rows : List (List (Option (FactorRef K)))) :
    Work.Meets M A I.squares meanings ((outermorphism m rows).perform A input) w
      (I.step meanings (.outermorphism m rows)) (StepResult.Means M A I.squares) := by
  refine .bind (Work.matrix_meets hI hw rows) ?_
  rintro matrix xss w₁ - hw₁ - hmatrix
  refine .bind (Work.multivector_meets hw₁ m) ?_
  rintro m f w₂ - hw₂ hadv hm
  have hmatrix₂ := hmatrix.mono hadv.symbols
  have hlength : matrix.length = xss.length := hmatrix.length_eq
  have hopen := hw₂.ready.ready
  by_cases hrows : I.dimension < xss.length
  · rw [if_pos hrows]
    have hexceeds : A.dimension < matrix.length := by
      rw [hlength, hI.dimension_eq]
      exact hrows
    have hfails := Algebra.outermorphism_fails hopen hm.toDenotes hexceeds
    rw [hlength, hI.dimension_eq] at hfails
    exact making_fails hw₂ hfails
  · rw [if_neg hrows]
    refine making_meets hw₂ (Reading.represents_of_plain ?_)
    exact Algebra.outermorphism_gives hM hopen hm.toDenotes hmatrix₂
      (by rw [hlength, hI.dimension_eq]; exact Nat.not_lt.1 hrows)

theorem force_meets (hM : M.Sound) (hw : w.Means M A I.squares meanings) (step : Nat) :
    Work.Meets M A I.squares meanings ((force step).perform A input) w
      (I.step meanings (.force step)) (StepResult.Means M A I.squares) := by
  refine .bind (Work.prepared_meets hw step) ?_
  rintro P f w₁ hf hw₁ - hP
  cases hP with
  | sandwich hvalid hunit =>
    refine .bind_ok (.onTarget hw₁ (b := ()) (r := fun s P' _ =>
      StepResult.Means M A I.squares s (.sandwich P') (.sandwich f)) (Yields.mono
        (Sandwich.force_yields hM hvalid hw₁.ready.ready) fun P' s' ⟨hadv, hvalid'⟩ =>
          ⟨hadv, Work.means_sandwich hvalid' hunit⟩)) ?_
    rintro P' w₂ hw₂ - hP'
    refine .bind_ok (Work.keep_meets hw₂ (Meaning.getD_of_preparedAt hf) hP') ?_
    rintro - w₃ hw₃ - -
    exact .pure hw₃ .nothing

/-- A prepared operator makes the sandwich of an operand, and stays prepared. -/
theorem apply_meets (hM : M.Sound) (hI : I.Fits M A input) (hw : w.Means M A I.squares meanings)
    (step : Nat) (x : MvRef) {options : SandwichOptions}
    (hoptions : options.keepOperandGrades = false) :
    Work.Meets M A I.squares meanings ((apply step x options).perform A input) w
      (I.step meanings (.apply step x options)) (StepResult.Means M A I.squares) := by
  refine .bind (Work.prepared_meets hw step) ?_
  rintro P f w₁ hf hw₁ - hP
  refine .bind (Work.multivector_meets hw₁ x) ?_
  rintro x g w₂ - hw₂ hadv₂ hx
  cases hP.mono hadv₂.symbols with
  | sandwich hvalid hunit =>
    have happlied := Sandwich.applyWith_yields hM hI.tolerance hvalid hw₂.ready.ready
      (fun _ => hx.toDenotes) options
    have hsquares : M.Squares w₂.target P.algebra.metric I.squares :=
      hvalid.algebra ▸ hvalid.squares
    have hoperator : M.Denotes P.algebra w₂.target P.operator f :=
      hvalid.algebra ▸ hvalid.denotes
    rw [Sandwich.sum_surviving hsquares hoperator hx.toDenotes hoptions] at happlied
    refine .bind_ok (.onTarget hw₂ (b := ()) (r := fun s result _ =>
      StepResult.Means M A I.squares s (.sandwich result.2) (.sandwich f) ∧
        ((options.dummy = true ∧ result.1 = .ok none) ∨ (options.dummy = false ∧
          ∃ r, result.1 = .ok (some r) ∧
            M.Represents A s r (Values.conjugate I.squares f g)))) (Yields.mono happlied ?_)) ?_
    · rintro ⟨result, P'⟩ s' ⟨hadv, hvalid', hdummy, hresult⟩
      refine ⟨hadv, Work.means_sandwich hvalid' hunit, ?_⟩
      cases hcase : options.dummy with
      | true => exact .inl ⟨rfl, hdummy hx.owner hcase⟩
      | false =>
        obtain ⟨r, hr, hdenotes, hknown⟩ := hresult hx.owner hcase
        exact .inr ⟨rfl, r, hr, hdenotes, fun h =>
          (hunit (hknown h).1).conjugate (hx.unital (hknown h).2)⟩
    · rintro ⟨result, P'⟩ w₃ hw₃ hadv₃ ⟨hP', hresult⟩
      refine .bind_ok (Work.keep_meets hw₃ (Meaning.getD_of_preparedAt hf) hP') ?_
      rintro - w₄ hw₄ hadv₄ -
      rcases hresult with ⟨hdummy, rfl⟩ | ⟨hdummy, r, rfl, hr⟩
      · rw [hdummy]
        exact .pure hw₄ .nothing
      · rw [hdummy]
        exact .pure hw₄ (.multivector (hr.mono hadv₄.symbols))

variable [Std.LawfulEqOrd S]

/-- **A polynomial step makes what it means**, or fails as its meaning does. -/
theorem perform_meets (hM : M.Sound) (hI : I.Fits M A input) (hw : w.Means M A I.squares meanings)
    {step : Step K} (hstep : step.isPolynomial = true) :
    Work.Meets M A I.squares meanings (step.perform A input) w (I.step meanings step)
      (StepResult.Means M A I.squares) := by
  cases step with
  | zero => exact .pure hw (.multivector ⟨Reading.denotes_zero, nofun⟩)
  | one =>
    refine making_meets hw (.mono (Algebra.one_gives hM hw.ready.ready) ?_)
    rintro r s' ⟨hadv, hr, -⟩
    exact ⟨hadv, hr, fun _ => Values.unital_one⟩
  | scalar x =>
    refine .bind (Work.factor_meets hI hw x) ?_
    rintro f x w' - hw' - hx
    refine making_meets hw' (.mono (Algebra.scalar_gives hM hw'.ready.ready hx.known) ?_)
    rintro r s' ⟨hadv, hr, hunit⟩
    rw [hx.value_eq] at hr
    refine ⟨hadv, hr, fun h => ?_⟩
    -- Only the literal one is stated to be a unit.
    rw [← hx.value_eq, Reading.value_of_isOne (hunit ▸ h)]
    exact Values.unital_one
  | vector coefficients => exact vector_meets hM hI hw coefficients
  | named components => exact named_meets hM hI hw components
  | combine op left right =>
    have hop : op ≠ .div := by simpa [isPolynomial] using hstep
    refine .bind (Work.factor_meets hI hw left) ?_
    rintro l x w₁ - hw₁ - hl
    refine .bind (Work.factor_meets hI hw₁ right) ?_
    rintro r y w₂ - hw₂ hadv hr
    have hl₂ := hadv.symbols.hasValue hl
    refine measuring_meets hw₂ (.lift (Yields.mono
      (Target.combine_yields hM hop hw₂.ready.ready hl₂.known hr.known) ?_))
    rintro f s' ⟨hkeeps, hopen, hknown, hvalue⟩
    rw [hl₂.value_eq, hr.value_eq] at hvalue
    exact ⟨hkeeps.advances hopen, hknown, hvalue⟩
  | coefficient m b =>
    refine .bind (Work.multivector_meets hw m) ?_
    rintro m f w' - hw' - hm
    exact .pure hw' (.scalar (hm.hasValue b))
  | scale x m =>
    refine .bind (Work.factor_meets hI hw x) ?_
    rintro factor x w₁ - hw₁ - hx
    refine .bind (Work.multivector_meets hw₁ m) ?_
    rintro m f w₂ - hw₂ hadv hm
    have hx₂ := hadv.symbols.hasValue hx
    have hscale := Algebra.scale_gives hM hw₂.ready.ready hx₂.known hm.toDenotes
    rw [hx₂.value_eq] at hscale
    exact making_meets hw₂ (Reading.represents_of_plain hscale)
  | unary op m =>
    refine .bind (Work.multivector_meets hw m) ?_
    rintro m f w' - hw' - hm
    exact making_meets hw' (UnaryOperation.perform_gives hM hw'.ready.ready hm hstep)
  | binary op a b =>
    refine .bind (Work.multivector_meets hw a) ?_
    rintro a f w₁ - hw₁ - ha
    refine .bind (Work.multivector_meets hw₁ b) ?_
    rintro b g w₂ - hw₂ hadv hb
    exact making_meets hw₂
      (BinaryOperation.perform_gives hM hw₂.ready (ha.mono hadv.symbols) hb hstep)
  | measure op m =>
    obtain rfl : op = .normSquared := by simpa [isPolynomial] using hstep
    refine .bind (Work.multivector_meets hw m) ?_
    rintro m f w' - hw' - hm
    exact measuring_meets hw' (Algebra.normSquared_gives hM hw'.ready hm.toDenotes
      fun hunit => (hm.unital hunit).normSquared_eq)
  | compare op a b =>
    obtain rfl : op = .scalarProduct := by simpa [isPolynomial] using hstep
    refine .bind (Work.multivector_meets hw a) ?_
    rintro a f w₁ - hw₁ - ha
    refine .bind (Work.multivector_meets hw₁ b) ?_
    rintro b g w₂ - hw₂ hadv hb
    exact measuring_meets hw₂ (Algebra.scalarProduct_gives hM hw₂.ready
      (ha.mono hadv.symbols).toDenotes hb.toDenotes)
  | plus ms =>
    refine .bind (Work.multivectors_meet hw ms) ?_
    rintro ms fs w' - hw' - hms
    exact making_meets hw' (Algebra.plus_represents hM hw'.ready.ready hms)
  | mulAll kind ms =>
    refine .bind (Work.multivectors_meet hw ms) ?_
    rintro ms fs w' - hw' - hms
    exact making_meets hw' (Algebra.mulAll_represents hM hw'.ready kind hms)
  | outermorphism m rows => exact outermorphism_meets hM hI hw m rows
  | sandwich operator =>
    refine .bind (Work.multivector_meets hw operator) ?_
    rintro R f w' - hw' - hR
    have hprepared : (A.sandwich R : Emission σ K (Sandwich K S)).Gives w'.target fun P s' =>
        M.Advances w'.target s' ∧
          StepResult.Means M A I.squares s' (.sandwich P) (.sandwich f) := by
      refine .bind (Algebra.check_gives hR.owner (.pure ⟨hw'.ready.advances, ?_⟩))
      exact .sandwich ⟨rfl, rfl, hw'.ready.squares, hR.toDenotes, nofun⟩ hR.unital
    exact Work.Meets.map (ψ := Meaning.sandwich) (.emission hw' hprepared) fun _ _ _ h => h
  | apply step x options =>
    exact apply_meets hM hI hw step x (by simpa [isPolynomial] using hstep)
  | force step => exact force_meets hM hw step
  | chain operators x =>
    refine .bind (Work.multivectors_meet hw operators) ?_
    rintro ms fs w₁ - hw₁ - hms
    refine .bind (Work.multivector_meets hw₁ x) ?_
    rintro x g w₂ - hw₂ hadv hx
    have hms₂ := hms.imp fun _ _ h => Reading.Represents.mono h hadv.symbols
    exact making_meets hw₂
      (Algebra.sandwichChain_represents hM hI.tolerance hw₂.ready hms₂ hx)
  | pseudoscalar | basisVectors | call _ _ | withKnownUnit _ _ | slerp _ _ _ => cases hstep

end Step

/-! ### Runs -/

namespace Workspace

variable {I : Interpretation K} {input : InputSource σ K S} [Ord S] [Std.LawfulEqOrd S]

/-- **A step of a run keeps the meanings of the results and adds its own.** -/
theorem Means.runStep (hM : M.Sound) (hI : I.Fits M A input)
    (hw : w.Means M A I.squares meanings) {step : Step K} (hstep : step.isPolynomial = true) :
    (w.runStep A input step).2.Means M A I.squares (I.next meanings step) := by
  obtain ⟨-, hw', hcorresponds⟩ := step.perform_meets hM hI hw hstep
  have hstate : (w.runStep A input step).2 =
      match ((step.perform A input).run.run w).1 with
      | .ok result => ((step.perform A input).run.run w).2.push result
      | .error _ => ((step.perform A input).run.run w).2.push .nothing := by
    rw [Workspace.runStep]
    rcases (step.perform A input).run.run w with ⟨_ | _, w'⟩ <;> rfl
  change Corresponds _ ((step.perform A input).run.run w).1 _ at hcorresponds
  change ((step.perform A input).run.run w).2.Means M A I.squares meanings at hw'
  rw [hstate, Interpretation.next]
  generalize ((step.perform A input).run.run w).1 = result at hcorresponds ⊢
  generalize I.step meanings step = outcome at hcorresponds ⊢
  cases hcorresponds with
  | ok hmeans => exact hw'.push hmeans
  | error e => exact hw'.push .nothing

/-- **A run makes what the script means.** -/
theorem Means.run (hM : M.Sound) (hI : I.Fits M A input) (hw : w.Means M A I.squares meanings)
    {script : Script K} (hscript : script.isPolynomial = true) :
    (w.run A input script).Means M A I.squares (I.run meanings script) := by
  induction script generalizing w meanings with
  | nil => exact hw
  | cons step rest ih =>
    obtain ⟨hstep, hrest⟩ := Bool.and_eq_true_iff.1 hscript
    exact ih (hw.runStep hM hI hstep) hrest

end Workspace

end Clifford

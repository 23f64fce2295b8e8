import Clifford.Proofs.Algebra.Numeric
import Clifford.Proofs.Number.Rational
import Clifford.Proofs.Program.Evaluator
import Clifford.Proofs.Script.Simulation

/-!
# Compiling and computing

A script can be compiled: it is run for a program, with a symbol for every input and for every entry
of the metric that is one, and the program is evaluated when the inputs have values. Or it can be
computed: it is run with the values in place of the symbols. For polynomial operations on exact
numbers both give the same values, although the two runs fold, drop and share different terms.

## Main definitions

- `Factor.compile`, `Factor.substitute` — an entry of a metric with symbols, or with their values
- `Program.inputs`, `NumericTarget.inputs` — both sources of inputs
- `StepResult.Agrees` — the values of a compiled result are those of a computed one

## Main results

- `Script.evaluate_compiled_eq_computed` — compiling and then evaluating agrees with computing
-/

namespace Clifford

variable {K : Type} [Number K]

/-! ### Symbols and their values -/

namespace Factor

/-- An entry that may be an input, with a symbol for the input. -/
def compile : Factor K String → StateM (Program K) (Factor K Handle)
  | number x => pure (number x)
  | symbol name => Program.input name

/-- An entry that may be an input, with a value for the input. -/
def substitute (values : String → K) : Factor K String → Factor K Empty
  | number x => number x
  | symbol name => number (values name)

end Factor

/-- Every input is a symbol. -/
def Program.inputs : InputSource (Program K) K Handle := fun name => some (Program.input name)

/-- Every input is a number. -/
def NumericTarget.inputs (values : String → K) : InputSource (NumericTarget K) K Empty :=
  fun name => some (pure (.number (values name)))

instance ordEmpty : Ord Empty where
  compare a _ := a.elim

instance lawfulEqOrdEmpty : Std.LawfulEqOrd Empty where
  compare_self {a} := a.elim
  eq_of_compare {a} := a.elim

/-- A compiled result is of the kind of a computed one, and its factors are evaluated to the
coefficients of the computed result. -/
inductive StepResult.Agrees (evaluate : Term K Handle → List (Except EvaluationError K)) :
    StepResult K Handle → StepResult K Empty → Prop
  | nothing : Agrees evaluate .nothing .nothing
  | multivector {m : Multivector K Handle} {m' : Multivector K Empty}
    (h : ∀ blades : List Blade,
      evaluate (blades.map m.value) = blades.map fun b => .ok (m'.value b).toNumber) :
    Agrees evaluate (.multivector m) (.multivector m')
  | scalar {f : Factor K Handle} {f' : Factor K Empty} (h : evaluate [f] = [.ok f'.toNumber]) :
    Agrees evaluate (.scalar f) (.scalar f')
  | sandwich {P : Sandwich K Handle} {P' : Sandwich K Empty}
    (h : ∀ blades : List Blade, evaluate (blades.map P.operator.value) =
      blades.map fun b => .ok (P'.operator.value b).toNumber) :
    Agrees evaluate (.sandwich P) (.sandwich P')

/-! ### Metrics and inputs -/

theorem Reading.squares_of_forall₂ {σ S V : Type} {M : Reading σ K S V} {s : σ}
    {metric : Metric K S} {xs : List K} (h : List.Forall₂ (M.HasValue s) metric xs) :
    M.Squares s metric fun i => xs[i]?.getD 1 := by
  intro i
  induction h generalizing i with
  | nil => rfl
  | cons hx _ ih =>
    cases i with
    | zero => exact ⟨hx.known, hx.value_eq⟩
    | succ i => exact ih i

theorem Program.compile_yields {values : String → K} {program : Program K}
    (h : program.Orderly (fun name => some (values name)) []) (entries : List (Factor K String)) :
    Yields (entries.mapM Factor.compile) program fun metric program' =>
      program.Stores program' ∧
        List.Forall₂ ((reading fun name => some (values name)).HasValue program') metric
          (entries.map fun entry => (entry.substitute values).toNumber) := by
  induction entries generalizing program with
  | nil => exact .pure ⟨.refl h.wellFormed, .nil⟩
  | cons entry rest ih =>
    have hentry : Yields entry.compile program fun f program' =>
        program.Stores program' ∧ (reading fun name => some (values name)).HasValue program' f
          (entry.substitute values).toNumber := by
      cases entry with
      | number x => exact .pure ⟨.refl h.wellFormed, Reading.known_number x, rfl⟩
      | symbol name =>
        have hx : some (values name) = some (values name) := rfl
        refine Yields.mono (input_yields (β := fun name => some (values name)) h.wellFormed hx) ?_
        rintro f program' ⟨hstores, hknown, hvalue⟩
        exact ⟨hstores, hknown, hvalue⟩
    rw [List.mapM_cons]
    refine Yields.bind (Yields.mono hentry ?_)
    rintro f program₁ ⟨hstores₁, hf⟩
    refine Yields.bind (Yields.mono (ih (h.stores hstores₁)) ?_)
    rintro metric program₂ ⟨hstores₂, hmetric⟩
    have hkeeps := (h.stores hstores₁).keeps hstores₂.toExtends hstores₂.wellFormed
    exact .pure ⟨hstores₁.trans hstores₂, .cons (hkeeps.symbols.hasValue hf) hmetric⟩

/-! ### Evaluation -/

/-- Values that are found under bindings of all inputs are those of the reading. -/
theorem Evaluator.factorValues_eq {program : Program K} (h : program.WellFormed)
    {values : String → K} {evaluator : Evaluator K} {valueOf : String → Option K}
    (hright : evaluator.Right program valueOf)
    (hvalues : ∀ name ∈ program.inputNames, valueOf name = some (values name))
    {factors : Term K Handle} {xs : List K}
    (hxs : List.Forall₂ ((Program.reading fun name => some (values name)).HasValue program)
      factors xs) :
    ((factorValues factors).run evaluator).1 = xs.map .ok := by
  rw [(factorValues_yields h hright factors).1]
  induction hxs with
  | nil => rfl
  | cons hx _ ih =>
    rw [List.map_cons, List.map_cons, ih, Program.factorValue_congr hvalues,
      Program.factorValue_of_known hx.known, hx.value_eq]

theorem NumericTarget.toNumber_eq {t : NumericTarget K} {f : Factor K Empty} {x : K}
    (h : (NumericTarget.reading K).HasValue t f x) : f.toNumber = x := by
  cases f with
  | number y => exact h.value_eq
  | symbol t => exact t.elim

theorem Reading.Denotes.agree_evaluated {program : Program K} {values : String → K}
    {A : Algebra K Handle} {B : Algebra K Empty} {t : NumericTarget K}
    {evaluate : Term K Handle → List (Except EvaluationError K)}
    (hevaluate : ∀ factors xs,
      List.Forall₂ ((Program.reading fun name => some (values name)).HasValue program) factors xs →
        evaluate factors = xs.map .ok)
    {m : Multivector K Handle} {m' : Multivector K Empty} {f : Values K}
    (hm : (Program.reading fun name => some (values name)).Denotes A program m f)
    (hm' : (NumericTarget.reading K).Denotes B t m' f) (blades : List Blade) :
    evaluate (blades.map m.value) = blades.map fun b => .ok (m'.value b).toNumber := by
  have hxs : List.Forall₂ ((Program.reading fun name => some (values name)).HasValue program)
      (blades.map m.value) (blades.map f) := by
    rw [List.forall₂_map_left_iff, List.forall₂_map_right_iff, List.forall₂_same]
    exact fun b _ => hm.hasValue b
  rw [hevaluate _ _ hxs, List.map_map]
  refine List.map_congr_left fun b _ => ?_
  rw [NumericTarget.toNumber_eq (hm'.hasValue b)]
  rfl

theorem NumericTarget.hasValue_substitute {t : NumericTarget K} (values : String → K)
    (entries : List (Factor K String)) :
    List.Forall₂ ((NumericTarget.reading K).HasValue t) (entries.map (Factor.substitute values))
      (entries.map fun entry => (entry.substitute values).toNumber) := by
  rw [List.forall₂_map_left_iff, List.forall₂_map_right_iff, List.forall₂_same]
  rintro (x | name) _
  · exact ⟨Reading.known_number x, rfl⟩
  · exact ⟨Reading.known_number (values name), rfl⟩

omit [Number K] in
/-- Whether an algebra can be created depends on the size of the metric. -/
theorem Algebra.create_corresponds {S S' : Type} {metric : Metric K S} {metric' : Metric K S'}
    (hlength : metric.length = metric'.length) {id id' : Nat} {names : List String}
    {settings : Settings K} {r : Algebra K S → Algebra K S' → Prop}
    (hr : ∀ A B, A.metric = metric → B.metric = metric' → A.names = B.names →
      A.settings = settings → B.settings = settings → r A B) :
    Corresponds r (create id metric names settings) (create id' metric' names settings) := by
  rw [create, create]
  by_cases hdimension : metric.length ≤ maxDimension
  · have hdimension' : metric'.length ≤ maxDimension := hlength ▸ hdimension
    rw [dif_pos hdimension, dif_pos hdimension']
    by_cases hnames : names.length = Blade.count metric.length
    · have hnames' : names.length = Blade.count metric'.length := hlength ▸ hnames
      rw [dif_pos hnames, dif_pos hnames']
      exact .ok (hr _ _ rfl rfl rfl rfl rfl)
    · have hnames' : ¬ names.length = Blade.count metric'.length := hlength ▸ hnames
      rw [dif_neg hnames, dif_neg hnames', hlength]
      exact .error _
  · have hdimension' : ¬ metric'.length ≤ maxDimension := hlength ▸ hdimension
    rw [dif_neg hdimension, dif_neg hdimension', hlength]
    exact .error _

variable [ExactNumber K]

/-! ### Interpretations -/

namespace Script

/-- The meanings that a script has when its inputs have the given values. -/
def interpretation (entries : List (Factor K String)) (names : Array String)
    (values : String → K) : Interpretation K where
  dimension := entries.length
  squares i := (entries.map fun entry => (entry.substitute values).toNumber)[i]?.getD 1
  bladeNamed? name :=
    ((List.range names.size).reverse.find? fun word => names[word]? == some name).map
      (BitVec.ofNat 32)
  inputs := values

variable {values : String → K} {entries : List (Factor K String)}

/-- The symbols of a program fit the interpretation in which they have their values. -/
theorem fits_compiled {A : Algebra K Handle} (hmetric : A.metric.length = entries.length)
    (htolerance : A.settings.unitTolerance? = none) :
    (interpretation entries A.names values).Fits (Program.reading fun name => some (values name)) A
      Program.inputs where
  dimension_eq := hmetric
  bladeNamed?_eq := rfl
  tolerance := htolerance
  inputs name := by
    refine ⟨Program.input name, rfl, fun program hopen => ?_⟩
    have hx : some (values name) = some (values name) := rfl
    refine Yields.mono
      (Program.input_yields (β := fun name => some (values name)) hopen.wellFormed hx) ?_
    rintro f program' ⟨hstores, hknown, hvalue⟩
    have hkeeps := hopen.keeps hstores.toExtends hstores.wellFormed
    exact ⟨hkeeps.advances (hopen.stores hstores), hknown, hvalue⟩

theorem fits_computed {B : Algebra K Empty} (hmetric : B.metric.length = entries.length)
    (htolerance : B.settings.unitTolerance? = none) :
    (interpretation entries B.names values).Fits (NumericTarget.reading K) B
      (NumericTarget.inputs values) where
  dimension_eq := hmetric
  bladeNamed?_eq := rfl
  tolerance := htolerance
  inputs name := ⟨pure (.number (values name)), rfl, fun _ _ =>
    .pure ⟨.refl trivial, Reading.known_number _, rfl⟩⟩

end Script

theorem Workspace.means_start {σ S V : Type} {M : Reading σ K S V} {A : Algebra K S} {s : σ}
    {q : Nat → K} (h : M.Ready A s q) : Workspace.Means M A q { target := s } [] :=
  ⟨h, rfl, fun _ => .nothing⟩

/-! ### Agreement -/

theorem StepResult.Means.agrees {program : Program K} {values : String → K}
    {A : Algebra K Handle} {B : Algebra K Empty} {q : Nat → K} {t : NumericTarget K}
    {evaluate : Term K Handle → List (Except EvaluationError K)}
    (hevaluate : ∀ factors xs,
      List.Forall₂ ((Program.reading fun name => some (values name)).HasValue program) factors xs →
        evaluate factors = xs.map .ok)
    {result : StepResult K Handle} {result' : StepResult K Empty} {meaning : Meaning K}
    (h : StepResult.Means (Program.reading fun name => some (values name)) A q program result
      meaning)
    (h' : StepResult.Means (NumericTarget.reading K) B q t result' meaning) :
    StepResult.Agrees evaluate result result' := by
  cases h with
  | nothing =>
    cases h' with
    | nothing => exact .nothing
  | multivector hm =>
    cases h' with
    | multivector hm' => exact .multivector (hm.toDenotes.agree_evaluated hevaluate hm'.toDenotes)
  | scalar hx =>
    cases h' with
    | scalar hx' =>
      refine .scalar ?_
      rw [hevaluate _ _ (.cons hx .nil), NumericTarget.toNumber_eq hx']
      rfl
  | sandwich hP _ =>
    cases h' with
    | sandwich hP' _ => exact .sandwich (hP.denotes.agree_evaluated hevaluate hP'.denotes)

namespace Script

/-- **Compiling and then evaluating agrees with computing.** An algebra with some symbols in its
metric can be created if the one with their values can. Then a script of polynomial operations makes
results of the same kinds in both, and every factor of a compiled result is evaluated to the number
that was computed, at every blade, when the inputs of the program are bound to their values. It does
not matter what the evaluator was used for before, nor which other factors it has been asked for
under these bindings. -/
theorem evaluate_compiled_eq_computed (entries : List (Factor K String)) (names : List String)
    {settings : Settings K} (htolerance : settings.unitTolerance? = none) {script : Script K}
    (hscript : script.isPolynomial = true) (values : String → K) (id id' : Nat)
    (evaluator : Evaluator K) (earlier : Term K Handle) :
    let metric := (entries.mapM Factor.compile).run {}
    Corresponds
      (fun (A : Algebra K Handle) (B : Algebra K Empty) =>
        let compiled := Workspace.run A Program.inputs { target := metric.2 } script
        let computed := Workspace.run B (NumericTarget.inputs values) { target := .idle } script
        let bound := { evaluator with program := compiled.target }.bindAll
          (compiled.target.inputNames.map fun name => (name, values name))
        let session := ((Evaluator.factorValues earlier).run bound).2
        compiled.results.size = computed.results.size ∧ ∀ i,
          StepResult.Agrees (fun factors => ((Evaluator.factorValues factors).run session).1)
            (compiled.results.getD i .nothing) (computed.results.getD i .nothing))
      (Algebra.create id metric.1 names settings)
      (Algebra.create id' (entries.map (Factor.substitute values)) names settings) := by
  intro metric
  have hempty := Program.orderly_empty (K := K) (β := fun name => some (values name))
  obtain ⟨hstores, hmetric⟩ := Program.compile_yields hempty entries
  have hlength : metric.1.length = (entries.map (Factor.substitute values)).length := by
    rw [hmetric.length_eq, List.length_map, List.length_map]
  refine Algebra.create_corresponds hlength fun A B hA hB hnames hsettings hsettings' => ?_
  have hfits : (interpretation entries A.names values).Fits
      (Program.reading fun name => some (values name)) A Program.inputs :=
    fits_compiled (by rw [hA, hlength, List.length_map]) (hsettings ▸ htolerance)
  have hfits' : (interpretation entries A.names values).Fits (NumericTarget.reading K) B
      (NumericTarget.inputs values) := by
    rw [hnames]
    exact fits_computed (by rw [hB, List.length_map]) (hsettings' ▸ htolerance)
  intro compiled computed bound session
  have hcompiled : compiled.Means (Program.reading fun name => some (values name)) A _ _ :=
    (Workspace.means_start ⟨hempty.stores hstores, by
      rw [hA]
      exact Reading.squares_of_forall₂ hmetric⟩).run Program.sound_reading hfits hscript
  have hcomputed : computed.Means (NumericTarget.reading K) B _ _ :=
    (Workspace.means_start ⟨trivial, by
      rw [hB]
      exact Reading.squares_of_forall₂ (NumericTarget.hasValue_substitute values entries)⟩).run
        NumericTarget.sound_reading hfits' hscript
  have hwellFormed := hcompiled.ready.ready.wellFormed
  have hbound : bound.Right compiled.target bound.valueOf :=
    Evaluator.right_bindAll { evaluator with program := compiled.target } _
  have hsession : session.Right compiled.target bound.valueOf :=
    (Evaluator.factorValues_yields hwellFormed hbound earlier).2
  refine ⟨hcompiled.size_eq.trans hcomputed.size_eq.symm, fun i => ?_⟩
  refine (hcompiled.results i).agrees (fun factors xs hxs => ?_) (hcomputed.results i)
  exact Evaluator.factorValues_eq hwellFormed hsession
    (fun name hname => Evaluator.valueOf_bindAll values (.inl hname)) hxs

/-- Squares a vector with a symbol for a coordinate, and applies the vector to the square. -/
def inputSquare : Script ℚ :=
  [.vector [.input "x", .number 2], .binary (.mul .geometric) (.result 0) (.result 0),
    .sandwich (.result 0), .apply 2 (.result 1) {}, .measure .normSquared (.result 3)]

/-- The squares of a plane: an input, and a null vector. -/
def inputEntries : List (Factor ℚ String) := [.symbol "q", .number 0]

theorem evaluate_compiled_eq_computed_inputSquare :
    let metric := (inputEntries.mapM Factor.compile).run {}
    ∃ A B, Algebra.create 0 metric.1 ["", "e0", "e1", "e01"] {} = .ok A ∧
      Algebra.create 0 [.number 5, .number 0] ["", "e0", "e1", "e01"] {} = .ok B ∧
      let compiled := Workspace.run A Program.inputs { target := metric.2 } inputSquare
      let computed := Workspace.run B (NumericTarget.inputs fun _ => 5) { target := .idle }
        inputSquare
      let bound := ({ program := compiled.target } : Evaluator ℚ).bindAll
        (compiled.target.inputNames.map fun name => (name, 5))
      compiled.results.size = computed.results.size ∧ ∀ i,
        StepResult.Agrees (fun factors => ((Evaluator.factorValues factors).run bound).1)
          (compiled.results.getD i .nothing) (computed.results.getD i .nothing) := by
  intro metric
  have htolerance : ({} : Settings ℚ).unitTolerance? = none := rfl
  have hscript : inputSquare.isPolynomial = true := by decide
  have hagree := evaluate_compiled_eq_computed inputEntries ["", "e0", "e1", "e01"] htolerance
    hscript (fun _ => 5) 0 0 { program := {} } []
  have hB : Algebra.create 0 (inputEntries.map (Factor.substitute fun _ => 5))
      ["", "e0", "e1", "e01"] {} = .ok ⟨0, [.number 5, .number 0], #["", "e0", "e1", "e01"], {},
        by decide, rfl⟩ := rfl
  change Corresponds _ (Algebra.create 0 metric.1 ["", "e0", "e1", "e01"] {}) _ at hagree
  rw [hB] at hagree
  generalize hA : Algebra.create 0 metric.1 ["", "e0", "e1", "e01"] {} = created at hagree
  cases hagree with
  | ok h => exact ⟨_, _, rfl, hB, h⟩

end Script

end Clifford

import Clifford.Proofs.Script.Permanence

/-!
# Requests to an evaluator

An evaluator is bound to inputs and asked for values in any order. It remembers what it finds, also
on the way to a failure. The plain evaluation of a program remembers nothing: it is the one function
that satisfies the recursion of evaluation. Every request is answered as plain evaluation answers it
under the bindings made so far.

## Main definitions

- `Evaluator.Request` — a binding of inputs, or a question for a value
- `Evaluator.latest` — the bindings in force after some bindings were made
- `Program.replies` — what plain evaluation answers to requests

## Main results

- `Program.WellFormed.step_iff` — plain evaluation is determined by its recursion
- `Program.WellFormed.evaluate_ne_circular` — plain evaluation ends
- `Evaluator.respondAll_yields` — remembering does not change the answers to requests
- `Recording.Reachable.replies_eq` — so it is in every recording that can be reached
-/

namespace Clifford

variable {K : Type} [Number K]

/-! ### Plain evaluation -/

section

variable {α β ε : Type} {e : ε}

theorem Except.bind_ne_error {c : Except ε α} {k : α → Except ε β} (hc : c ≠ .error e)
    (hk : ∀ a, k a ≠ .error e) : c >>= k ≠ .error e := by
  cases c with
  | error e' => exact fun h => hc (congrArg Except.error (Except.error.inj h))
  | ok a => exact hk a

theorem Except.mapM_ne_error {f : α → Except ε β} {l : List α} (h : ∀ a ∈ l, f a ≠ .error e) :
    l.mapM f ≠ .error e := by
  induction l with
  | nil => exact nofun
  | cons a rest ih =>
    rw [List.mapM_cons]
    refine bind_ne_error (h a List.mem_cons_self) fun b => ?_
    exact bind_ne_error (ih fun c hc => h c (List.mem_cons_of_mem a hc)) fun bs => nofun

end

theorem Node.valueM_ne_error {e : EvaluationError} {node : Node K}
    {inputs reads : Nat → Except EvaluationError K} {operands : Handle → Except EvaluationError K}
    (hinputs : ∀ id, inputs id ≠ .error e) (hreads : ∀ id, node = .read id → reads id ≠ .error e)
    (hoperands : ∀ child ∈ node.children, operands child ≠ .error e) :
    node.valueM inputs reads operands ≠ .error e := by
  cases node with
  | number x => exact nofun
  | input id => exact hinputs id
  | read id => exact hreads id rfl
  | negation arg => exact Except.bind_ne_error (hoperands arg List.mem_cons_self) fun x => nofun
  | binary op left right =>
    refine Except.bind_ne_error (hoperands left List.mem_cons_self) fun x => ?_
    exact Except.bind_ne_error (hoperands right (List.mem_cons_of_mem left List.mem_cons_self))
      fun y => nofun
  | sum args | product args | call f args =>
    exact Except.bind_ne_error (Except.mapM_ne_error hoperands) fun xs => nofun

namespace Program.WellFormed

variable {program : Program K} {valueOf : String → Option K}

/-- **Plain evaluation is determined by its recursion.** -/
theorem step_iff (h : program.WellFormed) {eval : Handle → Except EvaluationError K} :
    (∀ handle, eval handle = program.step valueOf eval handle) ↔
      eval = program.evaluate valueOf := by
  constructor
  · intro hstep
    have hsame : ∀ n (handle : Handle), handle.index = n →
        eval handle = program.evaluate valueOf handle := by
      intro n
      induction n using Nat.strongRecOn with
      | ind n ih =>
        rintro handle rfl
        rw [hstep, h.evaluate_eq]
        exact h.step_congr fun earlier hlt => ih earlier.index hlt earlier rfl
    exact funext fun handle => hsame handle.index handle rfl
  · rintro rfl
    exact h.evaluate_eq

/-- **Plain evaluation ends**: no expression is defined by itself. -/
theorem evaluate_ne_circular (h : program.WellFormed) (handle : Handle) :
    program.evaluate valueOf handle ≠ .error .circular := by
  have hends : ∀ n (handle : Handle), handle.index = n →
      program.evaluate valueOf handle ≠ .error .circular := by
    intro n
    induction n using Nat.strongRecOn with
    | ind n ih =>
      rintro handle rfl
      rw [h.evaluate_eq, step]
      cases hnode : program.arena.node? handle with
      | none => rintro ⟨⟩
      | some node =>
        refine Node.valueM_ne_error (fun id => ?_) ?_ fun child hchild => ?_
        · rw [inputValue]
          split <;> rintro ⟨⟩
        · rintro id rfl
          obtain ⟨definition, hdefinition, hlt⟩ := h.reads handle id hnode
          rw [readValue, ← definition?, hdefinition]
          exact ih definition.index hlt definition rfl
        · have hlt := h.arena.children_lt handle node hnode child hchild
          exact ih child.index hlt child rfl
  exact hends handle.index handle rfl

end Program.WellFormed

/-! ### Requests -/

namespace Evaluator

/-- What an evaluator is asked to do. -/
inductive Request (K : Type) where
  /-- Bind an input. -/
  | bind (name : String) (x : K)
  /-- Bind several inputs. -/
  | bindAll (values : List (String × K))
  /-- Give the value of an expression. -/
  | value (handle : Handle)
  /-- Give the value of a factor. -/
  | factor (f : Factor K Handle)

/-- Does what is asked, and answers if there is something to answer. -/
def respond : Request K → StateM (Evaluator K) (Option (Except EvaluationError K))
  | .bind name x => do
    modify (Evaluator.bind · name x)
    pure none
  | .bindAll values => do
    modify (Evaluator.bindAll · values)
    pure none
  | .value handle => some <$> Evaluator.value handle
  | .factor f => some <$> Evaluator.factorValue f

/-- Responds to requests one after the other. -/
def respondAll (requests : List (Request K)) :
    StateM (Evaluator K) (List (Option (Except EvaluationError K))) :=
  requests.mapM respond

/-- The bindings in force after some bindings were made. The last binding of a name counts. -/
def latest (bound : List (String × K)) (name : String) : Option K := bound.reverse.lookup name

end Evaluator

/-- What plain evaluation answers to requests, after some bindings were made. -/
def Program.replies (program : Program K) : List (String × K) → List (Evaluator.Request K) →
    List (Option (Except EvaluationError K))
  | _, [] => []
  | bound, .bind name x :: rest => none :: program.replies (bound ++ [(name, x)]) rest
  | bound, .bindAll values :: rest => none :: program.replies (bound ++ values) rest
  | bound, .value handle :: rest =>
    some (program.evaluate (Evaluator.latest bound) handle) :: program.replies bound rest
  | bound, .factor f :: rest =>
    some (program.factorValue (Evaluator.latest bound) f) :: program.replies bound rest

namespace Evaluator

variable {evaluator : Evaluator K} {program : Program K} {bound : List (String × K)}

omit [Number K] in
theorem latest_append_singleton (bound : List (String × K)) (name : String) (x : K) :
    latest (bound ++ [(name, x)]) =
      fun other => if name = other then some x else latest bound other := by
  funext other
  rw [latest, List.reverse_append, List.reverse_singleton, List.singleton_append, List.lookup_cons]
  by_cases h : name = other
  · subst h
    simp
  · rw [if_neg h, beq_false_of_ne (Ne.symm h)]
    rfl

/-- Bindings that are added count before the earlier ones. -/
theorem valueOf_bindAll_latest (h : evaluator.valueOf = latest bound)
    (values : List (String × K)) :
    (evaluator.bindAll values).valueOf = latest (bound ++ values) := by
  have hfold : ∀ (bindings : Std.HashMap String K) (bound : List (String × K)),
      (fun name => bindings[name]?) = latest bound →
        (fun name => (values.foldl (fun bindings (entry : String × K) =>
          bindings.insert entry.1 entry.2) bindings)[name]?) = latest (bound ++ values) := by
    induction values with
    | nil =>
      intro bindings bound hbound
      rw [List.append_nil]
      exact hbound
    | cons entry rest ih =>
      intro bindings bound hbound
      obtain ⟨name, x⟩ := entry
      rw [List.foldl_cons, List.append_cons]
      refine ih _ _ ?_
      rw [latest_append_singleton, ← hbound]
      funext other
      rw [Std.HashMap.getElem?_insert]
      simp only [beq_iff_eq]
  exact hfold evaluator.bindings bound h

theorem Right.bindAll (h : evaluator.Right program (latest bound)) (values : List (String × K)) :
    (evaluator.bindAll values).Right program (latest (bound ++ values)) := by
  have hright := right_bindAll evaluator values
  rwa [h.program_eq, valueOf_bindAll_latest h.valueOf_eq] at hright

/-- **Remembering does not change the answers to requests.** -/
theorem respondAll_yields (h : program.WellFormed) (hright : evaluator.Right program (latest bound))
    (requests : List (Request K)) :
    Yields (respondAll requests) evaluator fun answers _ =>
      answers = program.replies bound requests := by
  induction requests generalizing evaluator bound with
  | nil => exact .pure rfl
  | cons request rest ih =>
    -- What follows a request is answered by an evaluator that is right under the bindings then.
    have hrest : ∀ {evaluator' bound' answer}, evaluator'.Right program (latest bound') →
        Yields (do let answers ← respondAll rest; pure (answer :: answers)) evaluator'
          fun answers _ => answers = answer :: program.replies bound' rest := by
      intro evaluator' bound' answer hright'
      refine Yields.bind (Yields.mono (ih hright') ?_)
      rintro answers _ rfl
      exact .pure rfl
    rw [respondAll, List.mapM_cons]
    cases request with
    | bind name x => exact hrest (hright.bindAll [(name, x)])
    | bindAll values => exact hrest (hright.bindAll values)
    | value handle =>
      obtain ⟨hvalue, hright'⟩ := value_yields h hright handle
      rw [Program.replies, ← hvalue]
      exact hrest hright'
    | factor f =>
      obtain ⟨hvalue, hright'⟩ := factorValue_yields h hright f
      rw [Program.replies, ← hvalue]
      exact hrest hright'

theorem right_new (program : Program K) :
    ({ program } : Evaluator K).Right program (latest []) := by
  refine ⟨rfl, ?_, fun handle x hfound => by simp at hfound⟩
  funext name
  simp [valueOf, latest]

end Evaluator

namespace Recording

variable {recording : Recording K}

/-- **An evaluator answers as plain evaluation does.** In every recording that can be reached, plain
evaluation under given values of the inputs is the only function that satisfies the recursion of
evaluation, and it never runs in circles. Whatever an evaluator of the program is asked, one request
after the other and whether or not it finds a value, it answers each question as plain evaluation
does under the bindings made before the question. -/
theorem Reachable.replies_eq (h : recording.Reachable) :
    (∀ (valueOf : String → Option K) (eval : Handle → Except EvaluationError K),
      (∀ handle, eval handle = recording.program.step valueOf eval handle) ↔
        eval = recording.program.evaluate valueOf) ∧
    (∀ (valueOf : String → Option K) (handle : Handle),
      recording.program.evaluate valueOf handle ≠ .error .circular) ∧
    ∀ requests : List (Evaluator.Request K),
      ((Evaluator.respondAll requests).run { program := recording.program }).1 =
        recording.program.replies [] requests := by
  have hprogram := h.sane.wellFormed
  exact ⟨fun _ _ => hprogram.step_iff, fun _ => hprogram.evaluate_ne_circular, fun requests =>
    Evaluator.respondAll_yields hprogram (Evaluator.right_new recording.program) requests⟩

/-- A product that is asked for before its operands are bound, while only one of them is bound, and
again after each further binding. -/
theorem replies_eq_interrupted :
    let requests : List (Evaluator.Request ℚ) := [.value ⟨3⟩, .bind "a" 1, .value ⟨3⟩,
      .bindAll [("b", 2), ("s", 3)], .factor (.symbol ⟨3⟩), .bind "a" 5, .value ⟨3⟩]
    interrupted.Reachable ∧
      ((Evaluator.respondAll requests).run { program := interrupted.program }).1 =
        interrupted.program.replies [] requests := by
  intro requests
  have hreachable : interrupted.Reachable := by
    unfold interrupted
    exact Reachable.start.run_next (next_run {} _)
  exact ⟨hreachable, (Reachable.replies_eq hreachable).2.2 requests⟩

end Recording

end Clifford

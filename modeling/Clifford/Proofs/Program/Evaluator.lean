import Clifford.Proofs.Program.Reading

/-!
# Evaluators

An evaluator remembers the values that it has found. What it remembers is right, whatever it was
asked before, so it gives to every expression the value that the program gives it. Only the inputs
of the program matter for this value.

## Main definitions

- `Evaluator.Right` — what is remembered are the values of expressions
- `Program.inputNames` — the names of the inputs of a program
- `Program.factorValue` — the value of a factor in a program

## Main results

- `Evaluator.value_yields` — remembering does not change values
- `Evaluator.factorValues_yields` — several factors at once
- `Program.evaluate_congr` — only inputs of the program matter
- `Evaluator.valueOf_bindAll` — bound inputs have their values
-/

namespace Clifford

variable {K : Type} [Number K]

namespace Program

/-- The names of the inputs of a program. -/
def inputNames (program : Program K) : List String := program.arena.inputs.values.toList

/-- The value of a factor when inputs have the given values. -/
def factorValue (valueOf : String → Option K) (program : Program K) :
    Factor K Handle → Except EvaluationError K
  | .number x => .ok x
  | .symbol handle => program.evaluate valueOf handle

variable {program : Program K} {valueOf valueOf' : String → Option K}

theorem inputValue_congr (h : ∀ name ∈ program.inputNames, valueOf name = valueOf' name)
    (id : Nat) : (program.inputValue valueOf id : Except EvaluationError K) =
      program.inputValue valueOf' id := by
  rw [inputValue, inputValue]
  cases hname : program.arena.inputName? id with
  | none => rfl
  | some name =>
    have hmem : name ∈ program.inputNames := Array.mem_toList_iff.2 (Array.mem_of_getElem? hname)
    rw [Option.bind_some, Option.bind_some, h name hmem]

theorem evaluateWithin_congr (h : ∀ name ∈ program.inputNames, valueOf name = valueOf' name)
    (depth : Nat) (handle : Handle) :
    program.evaluateWithin valueOf depth handle = program.evaluateWithin valueOf' depth handle := by
  induction depth generalizing handle with
  | zero => rfl
  | succ depth ih =>
    rw [evaluateWithin, evaluateWithin, step, step, funext (inputValue_congr h), funext ih]

/-- Expressions have the same value under bindings that agree on the inputs of the program. -/
theorem evaluate_congr (h : ∀ name ∈ program.inputNames, valueOf name = valueOf' name)
    (handle : Handle) : program.evaluate valueOf handle = program.evaluate valueOf' handle :=
  evaluateWithin_congr h _ handle

theorem factorValue_congr (h : ∀ name ∈ program.inputNames, valueOf name = valueOf' name)
    (f : Factor K Handle) : program.factorValue valueOf f = program.factorValue valueOf' f := by
  cases f with
  | number x => rfl
  | symbol handle => exact evaluate_congr h handle

theorem factorValue_of_known {f : Factor K Handle} (h : (reading valueOf).Known program f) :
    program.factorValue valueOf f = .ok ((reading valueOf).value program f) := by
  cases f with
  | number x => rfl
  | symbol handle =>
    obtain ⟨x, hx⟩ := Reading.known_symbol.1 h
    rw [Reading.value_symbol hx]
    exact evaluate_of_eval? hx

end Program

/-! ### Remembered values -/

/-- What is remembered are values of the expressions of a program. -/
def Memo.Right (program : Program K) (valueOf : String → Option K) (memo : Memo K) : Prop :=
  ∀ (handle : Handle) x, memo[handle]? = some x → program.evaluate valueOf handle = .ok x

/-- A computation that remembers values has the given outcome, and what it remembers is right. -/
def Tracks (program : Program K) (valueOf : String → Option K) {α : Type}
    (c : ExceptT EvaluationError (StateM (Memo K)) α) (outcome : Except EvaluationError α) : Prop :=
  ∀ memo, Memo.Right program valueOf memo → Yields c.run memo fun r memo' =>
    r = outcome ∧ Memo.Right program valueOf memo'

namespace Tracks

variable {program : Program K} {valueOf : String → Option K} {α β : Type}

theorem pure (a : α) : Tracks program valueOf (Pure.pure a) (.ok a) :=
  fun _ hright => ⟨rfl, hright⟩

theorem throw (e : EvaluationError) :
    Tracks program valueOf (MonadExcept.throw e : ExceptT _ _ α) (.error e) :=
  fun _ hright => ⟨rfl, hright⟩

theorem bind {c : ExceptT EvaluationError (StateM (Memo K)) α} {outcome : Except EvaluationError α}
    {k : α → ExceptT EvaluationError (StateM (Memo K)) β} {next : α → Except EvaluationError β}
    (hc : Tracks program valueOf c outcome)
    (hk : ∀ a, outcome = .ok a → Tracks program valueOf (k a) (next a)) :
    Tracks program valueOf (c >>= k) (outcome >>= next) := by
  intro memo hright
  obtain ⟨houtcome, hright'⟩ := hc memo hright
  have hrun : (c >>= k).run.run memo =
      (ExceptT.bindCont k (c.run.run memo).1).run (c.run.run memo).2 := rfl
  unfold Yields
  rw [hrun, houtcome]
  cases outcome with
  | error e => exact ⟨rfl, hright'⟩
  | ok a => exact hk a rfl _ hright'

theorem mapM {f : α → ExceptT EvaluationError (StateM (Memo K)) β}
    {g : α → Except EvaluationError β} {l : List α}
    (h : ∀ a ∈ l, Tracks program valueOf (f a) (g a)) :
    Tracks program valueOf (l.mapM f) (l.mapM g) := by
  induction l with
  | nil => exact .pure []
  | cons a rest ih =>
    rw [List.mapM_cons, List.mapM_cons]
    refine .bind (h a List.mem_cons_self) fun b _ => ?_
    exact .bind (ih fun c hc => h c (List.mem_cons_of_mem a hc)) fun bs _ => .pure (b :: bs)

theorem valueM {node : Node K} {inputs reads : Nat → ExceptT EvaluationError (StateM (Memo K)) K}
    {inputs' reads' : Nat → Except EvaluationError K}
    {operands : Handle → ExceptT EvaluationError (StateM (Memo K)) K}
    {operands' : Handle → Except EvaluationError K}
    (hinputs : ∀ id, node = .input id → Tracks program valueOf (inputs id) (inputs' id))
    (hreads : ∀ id, node = .read id → Tracks program valueOf (reads id) (reads' id))
    (hoperands : ∀ child ∈ node.children,
      Tracks program valueOf (operands child) (operands' child)) :
    Tracks program valueOf (node.valueM inputs reads operands)
      (node.valueM inputs' reads' operands') := by
  cases node with
  | number x => exact .pure x
  | input id => exact hinputs id rfl
  | read id => exact hreads id rfl
  | negation arg => exact .bind (hoperands arg List.mem_cons_self) fun x _ => .pure (-x)
  | binary op left right =>
    refine .bind (hoperands left List.mem_cons_self) fun x _ => ?_
    exact .bind (hoperands right (List.mem_cons_of_mem left List.mem_cons_self)) fun y _ => .pure _
  | sum args | product args | call f args =>
    exact .bind (mapM hoperands) fun xs _ => .pure _

theorem inputValue (id : Nat) :
    Tracks program valueOf (program.inputValue valueOf id) (program.inputValue valueOf id) := by
  rw [Program.inputValue, Program.inputValue]
  cases (program.arena.inputName? id).bind valueOf with
  | none => exact .throw .unbound
  | some x => exact .pure x

/-- An expression is computed rightly if the earlier ones are. -/
theorem step (h : program.WellFormed) {handle : Handle}
    {operands : Handle → ExceptT EvaluationError (StateM (Memo K)) K}
    (hearlier : program.Holds handle → ∀ earlier : Handle, earlier.index < handle.index →
      Tracks program valueOf (operands earlier) (program.evaluate valueOf earlier)) :
    Tracks program valueOf (program.step valueOf operands handle)
      (program.evaluate valueOf handle) := by
  rw [h.evaluate_eq, Program.step, Program.step]
  cases hnode : program.arena.node? handle with
  | none => exact .throw .unbound
  | some node =>
    have hholds : program.Holds handle := Arena.index_lt_of_node? hnode
    refine valueM (fun id _ => inputValue id) ?_ fun child hchild => ?_
    · rintro id rfl
      obtain ⟨definition, hdefinition, hlt⟩ := h.reads handle id hnode
      rw [Program.readValue, Program.readValue, ← Program.definition?, hdefinition]
      exact hearlier hholds definition hlt
    · exact hearlier hholds child (h.arena.children_lt handle node hnode child hchild)

theorem valueWithin_succ (h : program.WellFormed) {depth : Nat} {handle : Handle}
    (hearlier : program.Holds handle → ∀ earlier : Handle, earlier.index < handle.index →
      Tracks program valueOf (Evaluator.valueWithin program valueOf depth earlier)
        (program.evaluate valueOf earlier)) :
    Tracks program valueOf (Evaluator.valueWithin program valueOf (depth + 1) handle)
      (program.evaluate valueOf handle) := by
  intro memo hright
  have hget : ∀ {k : Memo K → ExceptT EvaluationError (StateM (Memo K)) K} {Q},
      Yields (k memo).run memo Q → Yields (get >>= k).run memo Q := fun hQ => hQ
  rw [Evaluator.valueWithin]
  refine hget ?_
  split
  · rename_i x hfound
    exact ⟨(hright handle x hfound).symm, hright⟩
  · have hstep := step h hearlier
    have hvalue : program.evaluate valueOf handle =
        program.evaluate valueOf handle >>= fun x => Except.ok x := by
      cases program.evaluate valueOf handle <;> rfl
    rw [hvalue]
    refine bind hstep (fun x hx memo₁ hright₁ => ⟨rfl, ?_⟩) memo hright
    -- The new entry is right by `hx`, and the others were.
    intro other y hy
    change (memo₁.insert handle x)[other]? = some y at hy
    rw [Std.HashMap.getElem?_insert] at hy
    split at hy
    · rename_i heq
      obtain rfl : handle = other := eq_of_beq heq
      rw [hx, Option.some.inj hy]
    · exact hright₁ other y hy

theorem valueWithin_of_lt (h : program.WellFormed) {depth : Nat} {handle : Handle}
    (hlt : handle.index < depth) :
    Tracks program valueOf (Evaluator.valueWithin program valueOf depth handle)
      (program.evaluate valueOf handle) := by
  induction depth generalizing handle with
  | zero => omega
  | succ depth ih => exact valueWithin_succ h fun _ earlier hearlier => ih (by omega)

/-- **Remembering does not change the value of an expression.** -/
theorem valueWithin (h : program.WellFormed) (handle : Handle) :
    Tracks program valueOf (Evaluator.valueWithin program valueOf program.depth handle)
      (program.evaluate valueOf handle) := by
  -- The depth exceeds the index of every expression that is stored, and others have no operands.
  refine valueWithin_succ h fun hholds earlier hlt => ?_
  exact valueWithin_of_lt h (Nat.lt_trans hlt hholds)

end Tracks

namespace Evaluator

variable {evaluator : Evaluator K}

/-- The values of the inputs. -/
def valueOf (evaluator : Evaluator K) (name : String) : Option K := evaluator.bindings[name]?

/-- An evaluator of a well-formed program that remembers values under its bindings. -/
structure Right (program : Program K) (valueOf : String → Option K) (evaluator : Evaluator K) :
    Prop where
  program_eq : evaluator.program = program
  valueOf_eq : evaluator.valueOf = valueOf
  memo : Memo.Right program valueOf evaluator.memo

variable {program : Program K} {valueOf : String → Option K}

theorem value_yields (h : program.WellFormed) (hright : evaluator.Right program valueOf)
    (handle : Handle) :
    Yields (value handle) evaluator fun r evaluator' =>
      r = program.evaluate valueOf handle ∧ evaluator'.Right program valueOf := by
  obtain ⟨rfl, rfl, hmemo⟩ := hright
  obtain ⟨hresult, hmemo'⟩ := Tracks.valueWithin h handle _ hmemo
  exact ⟨hresult, rfl, rfl, hmemo'⟩

theorem factorValue_yields (h : program.WellFormed) (hright : evaluator.Right program valueOf)
    (f : Factor K Handle) :
    Yields (factorValue f) evaluator fun r evaluator' =>
      r = program.factorValue valueOf f ∧ evaluator'.Right program valueOf := by
  cases f with
  | number x => exact .pure ⟨rfl, hright⟩
  | symbol handle => exact value_yields h hright handle

/-- **An evaluator gives every factor its value**, and stays right. -/
theorem factorValues_yields (h : program.WellFormed) (hright : evaluator.Right program valueOf)
    (factors : Term K Handle) :
    Yields (factorValues factors) evaluator fun r evaluator' =>
      r = factors.map (program.factorValue valueOf) ∧ evaluator'.Right program valueOf := by
  induction factors generalizing evaluator with
  | nil => exact .pure ⟨rfl, hright⟩
  | cons f rest ih =>
    rw [factorValues, List.mapM_cons]
    refine Yields.bind (Yields.mono (factorValue_yields h hright f) ?_)
    rintro x evaluator₁ ⟨rfl, hright₁⟩
    refine Yields.bind (Yields.mono (ih hright₁) ?_)
    rintro xs evaluator₂ ⟨rfl, hright₂⟩
    exact .pure ⟨rfl, hright₂⟩

/-- Binding inputs makes an evaluator forget what it has found. -/
theorem right_bindAll (evaluator : Evaluator K) (values : List (String × K)) :
    (evaluator.bindAll values).Right evaluator.program (evaluator.bindAll values).valueOf :=
  ⟨rfl, rfl, fun handle x hfound => by simp [bindAll] at hfound⟩

theorem valueOf_bindAll (values : String → K) {names : List String} {name : String}
    (h : name ∈ names ∨ evaluator.valueOf name = some (values name)) :
    (evaluator.bindAll (names.map fun name => (name, values name))).valueOf name =
      some (values name) := by
  change ((names.map fun name => (name, values name)).foldl
    (fun bindings (entry : String × K) => bindings.insert entry.1 entry.2)
    evaluator.bindings)[name]? = _
  change name ∈ names ∨ evaluator.bindings[name]? = some (values name) at h
  generalize evaluator.bindings = bindings at h
  -- Later bindings of a name replace earlier ones, but give it the same value.
  induction names generalizing bindings with
  | nil =>
    rcases h with h | h
    · cases h
    · exact h
  | cons first rest ih =>
    rw [List.map_cons, List.foldl_cons]
    apply ih
    rw [Std.HashMap.getElem?_insert]
    by_cases hfirst : first = name
    · subst hfirst
      rw [beq_self_eq_true, if_pos rfl]
      exact .inr rfl
    · rw [beq_false_of_ne hfirst, if_neg Bool.false_ne_true]
      rcases h with (_ | ⟨_, hmem⟩) | h
      · exact absurd rfl hfirst
      · exact .inl hmem
      · exact .inr h

end Evaluator

end Clifford

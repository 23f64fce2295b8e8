import Clifford.Program.Evaluation
import Clifford.Proofs.Expression.Value
import Clifford.Proofs.Program.WellFormed

/-!
# Values of expressions in programs

In a well-formed program the depth that `Program.evaluate` allows is never used up. So evaluation
satisfies its own recursion without a depth, an expression has a value where its parts have values,
and that value survives everything that is recorded later.

## Main definitions

- `Program.eval?`, `Program.val` — the value of an expression when some inputs have values

## Main results

- `Program.WellFormed.evaluate_eq` — the recursion of evaluation
- `Program.WellFormed.eval?_eq` — a node has a value where its parts have values
- `Program.Extends.evaluate_eq` — values are kept
-/

namespace Clifford

namespace Program

variable {K : Type} [Number K]

/-- The value of an expression when inputs have the given values. -/
def eval? (valueOf : String → Option K) (program : Program K) (handle : Handle) : Option K :=
  (program.evaluate valueOf handle).toOption

/-- The value of an expression, and zero where there is none. -/
def val (valueOf : String → Option K) (program : Program K) (handle : Handle) : K :=
  (program.eval? valueOf handle).getD 0

variable {program program' : Program K} {handle : Handle} {node : Node K}
  {valueOf : String → Option K} {x : K}

theorem val_of_eval? (h : program.eval? valueOf handle = some x) :
    program.val valueOf handle = x := by
  rw [val, h, Option.getD_some]

theorem evaluate_of_eval? (h : program.eval? valueOf handle = some x) :
    program.evaluate valueOf handle = .ok x := by
  rw [eval?] at h
  cases hresult : program.evaluate valueOf handle with
  | ok y =>
    rw [hresult] at h
    exact congrArg Except.ok (Option.some.inj h)
  | error e =>
    rw [hresult] at h
    cases h

namespace WellFormed

/-- The value of an expression is determined by those of earlier ones. -/
theorem step_congr (h : program.WellFormed) {f g : Handle → Except EvaluationError K}
    (hfg : ∀ earlier : Handle, earlier.index < handle.index → f earlier = g earlier) :
    program.step valueOf f handle = program.step valueOf g handle := by
  rw [step, step]
  cases hnode : program.arena.node? handle with
  | none => rfl
  | some node =>
    refine Node.valueM_congr (fun _ _ => rfl) ?_ ?_
    · rintro id rfl
      obtain ⟨definition, hdefinition, hlt⟩ := h.reads handle id hnode
      rw [readValue, readValue, ← definition?, hdefinition]
      exact hfg definition hlt
    · intro child hchild
      exact hfg child (h.arena.children_lt handle node hnode child hchild)

/-- Beyond the index of an expression, the depth does not matter. -/
theorem evaluateWithin_eq (h : program.WellFormed) {depth depth' : Nat}
    (hdepth : handle.index < depth) (hdepth' : handle.index < depth') :
    program.evaluateWithin valueOf depth handle = program.evaluateWithin valueOf depth' handle := by
  induction depth generalizing depth' handle with
  | zero => exact absurd hdepth (Nat.not_lt_zero _)
  | succ depth ih =>
    obtain ⟨depth', rfl⟩ := Nat.exists_eq_add_of_lt (Nat.zero_lt_of_lt hdepth')
    rw [Nat.zero_add, evaluateWithin, evaluateWithin]
    refine h.step_congr fun earlier hlt => ih ?_ ?_ <;> omega

/-- **Evaluation satisfies its recursion**, without any bound on the depth. -/
theorem evaluate_eq (h : program.WellFormed) (handle : Handle) :
    program.evaluate valueOf handle = program.step valueOf (program.evaluate valueOf) handle := by
  rw [evaluate, depth, evaluateWithin]
  by_cases hstored : program.Holds handle
  · refine h.step_congr fun earlier hlt => ?_
    have hsize : handle.index < program.arena.size := hstored
    rw [evaluate, depth]
    exact h.evaluateWithin_eq (by omega) (by omega)
  · have hnode : program.arena.node? handle = none := by
      refine Option.eq_none_iff_forall_ne_some.2 fun node hnode => hstored ?_
      exact Arena.index_lt_of_node? hnode
    rw [step, step, hnode]

theorem holds_of_eval? (h : program.WellFormed) (hx : program.eval? valueOf handle = some x) :
    program.Holds handle := by
  cases hnode : program.arena.node? handle with
  | some node => exact Arena.index_lt_of_node? hnode
  | none =>
    rw [eval?, h.evaluate_eq, step, hnode] at hx
    cases hx

/-- **A node has its value where its input, its variable and its operands have values.** -/
theorem eval?_eq (h : program.WellFormed) (hnode : program.arena.node? handle = some node)
    (inputs reads : Nat → K) (operands : Handle → K)
    (hinput : ∀ id, node = .input id →
      (program.arena.inputName? id).bind valueOf = some (inputs id))
    (hread : ∀ id, node = .read id → ∃ definition, program.definition? id = some definition ∧
      program.eval? valueOf definition = some (reads id))
    (hoperands : ∀ child ∈ node.children, program.eval? valueOf child = some (operands child)) :
    program.eval? valueOf handle = some (node.value inputs reads operands) := by
  have hvalue : program.evaluate valueOf handle = .ok (node.value inputs reads operands) := by
    rw [h.evaluate_eq, step, hnode]
    refine Eq.trans (Node.valueM_congr ?_ ?_ ?_) (Node.valueM_pure node inputs reads operands)
    · intro id hid
      rw [inputValue, hinput id hid]
    · intro id hid
      obtain ⟨definition, hdefinition, heval⟩ := hread id hid
      rw [readValue, ← definition?, hdefinition]
      exact evaluate_of_eval? heval
    · intro child hchild
      exact evaluate_of_eval? (hoperands child hchild)
  rw [eval?, hvalue]
  rfl

theorem eval?_read (h : program.WellFormed) {id : Nat} {definition : Handle}
    (hnode : program.arena.node? handle = some (.read id))
    (hdefinition : program.definition? id = some definition) :
    program.eval? valueOf handle = program.eval? valueOf definition := by
  rw [eval?, h.evaluate_eq, step, hnode, eval?]
  change (program.readValue _ id : Except _ _).toOption = _
  rw [readValue, ← definition?, hdefinition]

theorem eval?_negation (h : program.WellFormed) {inner : Handle}
    (hnode : program.arena.node? handle = some (.negation inner))
    (hx : program.eval? valueOf handle = some x) :
    ∃ y, program.eval? valueOf inner = some y ∧ x = -y := by
  rw [eval?, h.evaluate_eq, step, hnode] at hx
  change (do let y ← program.evaluate valueOf inner; pure (-y) : Except _ K).toOption = _ at hx
  cases hinner : program.evaluate valueOf inner with
  | error e =>
    rw [hinner] at hx
    cases hx
  | ok y =>
    rw [hinner] at hx
    exact ⟨y, by rw [eval?, hinner]; rfl, (Option.some.inj hx).symm⟩

end WellFormed

/-- **The value of a stored expression is kept** by everything that is recorded later. -/
theorem Extends.evaluate_eq (hext : program.Extends program') (h : program.WellFormed)
    (h' : program'.WellFormed) (hstored : program.Holds handle) :
    program'.evaluate valueOf handle = program.evaluate valueOf handle := by
  have hkept : ∀ n (handle : Handle), handle.index = n → program.Holds handle →
      program'.evaluate valueOf handle = program.evaluate valueOf handle := by
    intro n
    induction n using Nat.strongRecOn with
    | ind n ih =>
      rintro handle rfl hstored
      have hearlier : ∀ earlier : Handle, earlier.index < handle.index →
          program'.evaluate valueOf earlier = program.evaluate valueOf earlier :=
        fun earlier hlt => ih earlier.index hlt earlier rfl (Nat.lt_trans hlt hstored)
      obtain ⟨node, hnode⟩ := Arena.exists_node? hstored
      rw [h.evaluate_eq, h'.evaluate_eq, step, step, hext.arena.nodes handle node hnode, hnode]
      refine Node.valueM_congr ?_ ?_ ?_
      · rintro id rfl
        obtain ⟨name, hname⟩ := h.arena.inputs_named handle id hnode
        rw [inputValue, inputValue, hname, hext.arena.inputs id name hname]
      · rintro id rfl
        obtain ⟨definition, hdefinition, hlt⟩ := h.reads handle id hnode
        have hdefinition' := hext.definitions id definition hdefinition
        rw [readValue, readValue, ← definition?, ← definition?, hdefinition, hdefinition']
        exact hearlier definition hlt
      · intro child hchild
        exact hearlier child (h.arena.children_lt handle node hnode child hchild)
  exact hkept handle.index handle rfl hstored

theorem Extends.eval?_eq (hext : program.Extends program') (h : program.WellFormed)
    (h' : program'.WellFormed) (hx : program.eval? valueOf handle = some x) :
    program'.eval? valueOf handle = some x := by
  rw [← hx, eval?, eval?, hext.evaluate_eq h h' (h.holds_of_eval? hx)]

end Program

end Clifford

import Clifford.Proofs.Program.Log
import Mathlib.Data.List.Nodup
import Mathlib.Data.List.Perm.Subperm
import Std.Data.String.ToNat

/-!
# Names of variables

Each variable of a program has a name of its own, whatever the hints are, and each sum and product
that is stored has operands. Every call of a program keeps both.

## Main definitions

- `Program.Tidy` — names are different, and sums and products have operands
- `Program.tidyReading` — the reading of a program whose statements can be executed, and which is
  tidy

## Main results

- `Program.isTaken_freeNumber` — a free number is found
- `Program.sound_tidyReading` — every call to a program keeps it tidy
-/

namespace Clifford

/-- A computation maintains what holds of the state. -/
def Maintains {σ α : Type} (I : σ → Prop) (c : StateM σ α) : Prop :=
  ∀ s, I s → Yields c s fun _ s' => I s'

namespace Maintains

variable {σ α β : Type} {I : σ → Prop} {c : StateM σ α} {k : α → StateM σ β}

theorem pure (a : α) : Maintains I (Pure.pure a : StateM σ α) := fun _ h => h

theorem get : Maintains I (MonadState.get : StateM σ σ) := fun _ h => h

theorem bind (hc : Maintains I c) (hk : ∀ a, Maintains I (k a)) : Maintains I (c >>= k) :=
  fun s h => Yields.bind (Yields.mono (hc s h) fun a s' h' => hk a s' h')

theorem mapM {f : α → StateM σ β} (hf : ∀ a, Maintains I (f a)) (l : List α) :
    Maintains I (l.mapM f) := by
  induction l with
  | nil => exact .pure []
  | cons a rest ih =>
    rw [List.mapM_cons]
    exact .bind (hf a) fun b => .bind ih fun bs => .pure (b :: bs)

end Maintains

namespace Program

variable {K : Type} [Number K] {program : Program K}

/-! ### Free names -/

/-- Different numbers make different names of a hint. -/
theorem candidate_injective (hint : String) : Function.Injective (candidate hint) := by
  have hnumbered : ∀ n, n ≠ 0 → (candidate hint n).toList =
      hint.toList ++ '_' :: (Nat.repr n).toList := by
    intro n hn
    rw [candidate, if_neg hn]
    simp [toString]
  have hplain : candidate hint 0 = hint := if_pos rfl
  intro m n h
  have hlist := congrArg String.toList h
  by_cases hm : m = 0 <;> by_cases hn : n = 0
  · rw [hm, hn]
  · rw [hm, hplain, hnumbered n hn] at hlist
    exact absurd hlist (by simp)
  · rw [hn, hplain, hnumbered m hm] at hlist
    exact absurd hlist (by simp)
  · rw [hnumbered m hm, hnumbered n hn] at hlist
    have htail := List.append_cancel_left hlist
    exact Nat.repr_inj.1 (String.toList_inj.1 (List.cons.inj htail).2)

/-- The names of the variables. -/
def names (program : Program K) : List String := program.declared.toList.map Variable.name

theorem isTaken_iff {name : String} : program.isTaken name = true ↔ name ∈ program.names := by
  rw [isTaken, Array.any_eq_true', names, List.mem_map]
  simp

/-- **A free number is found.** There is one more number to try than there are variables, and all
numbers make different names, so not all of the names can be taken. -/
theorem isTaken_freeNumber (program : Program K) (hint : String) (start : Nat) :
    candidate hint (program.freeNumber hint start) ∉ program.names := by
  rw [← isTaken_iff, Bool.not_eq_true]
  unfold freeNumber
  generalize htried : (List.range (program.declared.size + 1)).map (start + ·) = tried
  dsimp only
  cases hfind : tried.find? fun number => !program.isTaken (candidate hint number) with
  | some number =>
    have hfree := List.find?_some hfind
    simpa using hfree
  | none =>
    have hall : ∀ name ∈ tried.map (candidate hint), name ∈ program.names := by
      intro name hname
      obtain ⟨number, hnumber, rfl⟩ := List.mem_map.1 hname
      have hno := List.find?_eq_none.1 hfind number hnumber
      rw [← isTaken_iff]
      simpa using hno
    have hnodup : (tried.map (candidate hint)).Nodup := by
      rw [← htried]
      refine (List.Nodup.map ?_ List.nodup_range).map (candidate_injective hint)
      exact fun _ _ h => Nat.add_left_cancel h
    have hlength := (hnodup.subperm hall).length_le
    rw [← htried, List.length_map, List.length_map, List.length_range, names, List.length_map,
      Array.length_toList] at hlength
    exact absurd hlength (Nat.not_succ_le_self _)

/-! ### Tidy programs -/

/-- No two variables have the same name, and every sum and product has operands. -/
structure Tidy (program : Program K) : Prop where
  names_nodup : program.names.Nodup
  hasOperands : ∀ handle node, program.arena.node? handle = some node → node.HasOperands

theorem tidy_empty : ({} : Program K).Tidy where
  names_nodup := List.nodup_nil
  hasOperands handle node h := by simp [Arena.node?] at h

theorem Tidy.congr (h : program.Tidy) {program' : Program K}
    (hdeclared : program'.names = program.names) (harena : program'.arena = program.arena) :
    program'.Tidy :=
  ⟨hdeclared ▸ h.names_nodup, harena ▸ h.hasOperands⟩

/-- Storing an expression keeps a program tidy. -/
theorem maintains_store (node : Node K) (hnode : node.HasOperands) :
    Maintains Tidy (onArena (Arena.store node) : StateM (Program K) Handle) := by
  refine fun program h => ⟨h.names_nodup, fun handle other hother => ?_⟩
  rcases Arena.node?_intern_cases hother with hold | ⟨-, rfl, -⟩
  · exact h.hasOperands handle other hold
  · exact hnode

theorem maintains_input (name : String) :
    Maintains Tidy (onArena (Arena.input name) : StateM (Program K) Handle) := by
  have hnumber : Maintains Tidy (onArena (Arena.internInput name) : StateM (Program K) Nat) :=
    fun program h => ⟨h.names_nodup, h.hasOperands⟩
  exact .bind hnumber fun id => maintains_store (.input id) trivial

theorem sorted_ne_nil {args : List Handle} (h : args ≠ []) : Arena.sorted args ≠ [] :=
  fun hnil => h (List.Perm.nil_eq (hnil ▸ List.mergeSort_perm args _)).symm

theorem maintains_sum (args : List Handle) :
    Maintains Tidy (onArena (Arena.sum args) : StateM (Program K) Handle) := by
  unfold Arena.sum
  split
  · exact maintains_store _ trivial
  · exact .pure _
  · rename_i args hnil _
    exact maintains_store _ (sorted_ne_nil fun h => hnil h)

theorem maintains_product (args : List Handle) :
    Maintains Tidy (onArena (Arena.product args) : StateM (Program K) Handle) := by
  unfold Arena.product
  split
  · exact maintains_store _ trivial
  · exact .pure _
  · rename_i args hnil _
    exact maintains_store _ (sorted_ne_nil fun h => hnil h)

theorem maintains_negate (arg : Handle) :
    Maintains Tidy (onArena (Arena.negate arg) : StateM (Program K) Handle) := by
  intro program h
  unfold Arena.negate
  rw [onArena_bind]
  have hget : ∀ {Q}, Q program.arena program → Yields (onArena get) program Q := fun hQ => hQ
  refine Yields.bind (hget ?_)
  split
  · exact h
  · exact maintains_store (.negation arg) trivial program h

theorem maintains_factorHandle (f : Factor K Handle) : Maintains Tidy (factorHandle f) := by
  cases f with
  | number x => exact maintains_store _ trivial
  | symbol handle => exact .pure handle

theorem names_newVariable (program : Program K) (hint : String) : ∃ hint' start,
    ((newVariable hint).run program).2.names =
      program.names ++ [candidate hint' (program.freeNumber hint' start)] :=
  ⟨_, _, (congrArg (List.map Variable.name) Array.toList_push).trans List.map_append⟩

/-- A new variable gets a new name. -/
theorem maintains_newVariable (hint : String) :
    Maintains Tidy (newVariable hint : StateM (Program K) Nat) := by
  refine fun program h => ⟨?_, h.hasOperands⟩
  obtain ⟨hint', start, hnames⟩ := names_newVariable program hint
  rw [hnames, ← List.concat_eq_append]
  exact List.Nodup.concat (isTaken_freeNumber program hint' start) h.names_nodup

/-- Completing a variable changes no name. -/
theorem names_define (program : Program K) (id : Nat) (definition : Handle) :
    ((define id definition).run program).2.names = program.names := by
  refine List.ext_getElem? fun i => ?_
  rw [names, names, List.getElem?_map, List.getElem?_map, Array.getElem?_toList,
    Array.getElem?_toList]
  change ((program.declared.modify id _)[i]?).map _ = _
  rw [Array.getElem?_modify]
  split
  · rw [Option.map_map]
    rfl
  · rfl

theorem maintains_define (id : Nat) (definition : Handle) :
    Maintains Tidy (define id definition : StateM (Program K) Unit) :=
  fun program h => h.congr (names_define program id definition) rfl

theorem maintains_emit (statement : Statement) :
    Maintains Tidy (emit statement : StateM (Program K) Unit) :=
  fun _ h => h.congr rfl rfl

theorem maintains_emitTerm (slot : Slot) (term : Term K Handle) (negate init : Bool) :
    Maintains Tidy (emitTerm slot term negate init) := by
  have hdone : ∀ signed, Maintains Tidy (do
      emit (if init then .assign slot.id signed else .augment slot.id signed)
      pure { slot with terms := slot.terms ++ [signed] } : StateM (Program K) Slot) :=
    fun signed => .bind (maintains_emit _) fun _ => .pure _
  refine .bind (.mapM maintains_factorHandle _) fun factors => ?_
  refine .bind (maintains_product factors) fun product => ?_
  cases negate with
  | false => exact hdone product
  | true => exact .bind (maintains_negate product) hdone

theorem maintains_closeSlot (slot : Slot) :
    Maintains Tidy (closeSlot slot : StateM (Program K) Handle) :=
  .bind (maintains_sum slot.terms) fun definition =>
    .bind (maintains_define slot.id definition) fun _ => maintains_store (.read slot.id) trivial

theorem maintains_temporary (expression : Handle) (hint : String) :
    Maintains Tidy (temporary expression hint : StateM (Program K) Handle) := by
  refine .bind .get fun program => ?_
  split
  · exact .pure _
  · refine .bind (maintains_newVariable hint) fun id => .bind (maintains_define id expression) ?_
    refine fun _ => .bind (maintains_emit _) fun _ => .bind (maintains_store _ trivial) ?_
    refine fun handle => .bind (fun program h => ?_) fun _ => .pure handle
    exact Tidy.congr h rfl rfl

theorem maintains_applyFunction (f : ScalarFunction) (args : Term K Handle) :
    Maintains Tidy (applyFunction f args) :=
  .bind (.mapM maintains_factorHandle args) fun _ =>
    .bind (maintains_store _ trivial) fun expression => maintains_temporary expression f.name

theorem maintains_applyOperator (op : Operator) (l r : Factor K Handle) :
    Maintains Tidy (applyOperator op l r) :=
  .bind (maintains_factorHandle l) fun _ => .bind (maintains_factorHandle r) fun _ =>
    .bind (maintains_store _ trivial) fun expression => maintains_temporary expression "t"

/-! ### The reading -/

variable [ExactNumber K] {β : String → Option K}

/-- The reading of a program whose statements can be executed, and which is tidy. -/
def tidyReading (β : String → Option K) : Reading (Program K) K Handle Slot :=
  (logReading β).strengthen fun program _ => program.Tidy

omit [ExactNumber K] in
theorem preserves_tidy : (logReading β : Reading (Program K) K Handle Slot).Preserves
    fun program _ => program.Tidy where
  sublist _ h _ := h
  opens _ name _ negate _ h _ :=
    (Maintains.bind (.bind (maintains_newVariable name) fun _ => .pure _)
      fun slot => maintains_emitTerm slot _ negate true) _ h
  augments negate _ h _ := maintains_emitTerm _ _ negate false _ h
  closes _ h := maintains_closeSlot _ _ h
  calls _ f _ _ h _ := maintains_applyFunction f _ _ h
  combines _ op _ _ _ h _ _ := maintains_applyOperator op _ _ _ h
  spaces _ h := maintains_emit .space _ h
  comments text _ h := maintains_emit (.comment text) _ h

/-- **Every call to a program keeps it tidy.** -/
theorem sound_tidyReading : (tidyReading β : Reading (Program K) K Handle Slot).Sound :=
  sound_logReading.strengthen preserves_tidy

end Program

end Clifford

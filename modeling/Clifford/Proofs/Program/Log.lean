import Clifford.Proofs.Program.Execution
import Clifford.Proofs.Program.Reading
import Clifford.Proofs.Target.Framing

/-!
# The log of a program

The statements of a program can be executed at any time, also while components are open: every
complete variable then holds the value of its definition, and every open one the sum of its terms.

## Main definitions

- `Program.Remembers` — a memory with the values of the variables of a program
- `Program.Logged` — the statements can be executed, and lead to such a memory
- `Program.logReading` — the reading of a program whose statements can be executed

## Main results

- `Program.sound_logReading` — every call to a program keeps its statements executable
-/

namespace Clifford

/-- The expression that a statement computes. -/
def Statement.value? : Statement → Option Handle
  | .assign _ value | .augment _ value | .bind _ value => some value
  | .space | .comment _ => none

namespace Program

variable {K : Type} [Number K]

/-- The memory holds the values of the complete variables, and the sums of the open ones. -/
structure Remembers (β : String → Option K) (program : Program K) (slots : List Slot)
    (memory : Memory K) : Prop where
  defined : ∀ id definition, program.definition? id = some definition →
    ∃ x, program.eval? β definition = some x ∧ memory id = some x
  summed : ∀ slot ∈ slots, memory slot.id = some ((reading β).stored program slot)

/-- The statements are about the first `count` variables. They can be executed, and then the memory
holds the values of the variables. -/
structure Logged (β : String → Option K) (count : Nat) (program : Program K)
    (slots : List Slot) : Prop where
  holds : ∀ statement ∈ program.statements, ∀ value ∈ statement.value?, program.Holds value
  disciplined : Disciplined count program.code
  executed : ∃ memory, program.execute β = some memory ∧ program.Remembers β slots memory

variable {β : String → Option K} {program program' : Program K} {slots : List Slot} {slot : Slot}
  {handle : Handle} {count : Nat} {memory : Memory K} {statement : Statement} {x : K}

/-! ### Commands -/

theorem inputs_command (h : program.WellFormed) {id : Nat}
    (hid : id ∈ (program.command statement).inputs) :
    ∃ name, program.arena.inputName? id = some name := by
  cases statement with
  | assign _ value | augment _ value | bind _ value =>
    exact Arena.exists_name_of_mem_inputs h.arena hid
  | space | comment _ => cases hid

/-- Variables that are read are complete. -/
theorem WellFormed.defined_of_reads (h : program.WellFormed) {id : Nat}
    (hid : (program.command statement).Reads id) :
    ∃ definition, program.definition? id = some definition := by
  have hread : ∃ value, id ∈ (program.arena.tree value).reads := by
    cases statement with
    | assign _ value | augment _ value | bind _ value => exact ⟨value, hid⟩
    | space | comment _ => cases hid
  obtain ⟨value, hid⟩ := hread
  obtain ⟨leaf, hleaf⟩ := Arena.exists_read_of_mem_reads h.arena hid
  obtain ⟨definition, hdefinition, -⟩ := h.reads leaf id hleaf
  exact ⟨definition, hdefinition⟩

theorem definition?_eq_none_of_le {id : Nat} (h : program.declared.size ≤ id) :
    program.definition? id = none := by
  rw [definition?, variableAt?, Array.getElem?_eq_none h, Option.bind_none]

theorem WellFormed.not_reads_of_open (h : program.WellFormed) {id : Nat} (hid : program.IsOpen id) :
    ¬ (program.command statement).Reads id := by
  intro hreads
  obtain ⟨definition, hdefinition⟩ := h.defined_of_reads hreads
  rw [hid.definition?_eq_none] at hdefinition
  cases hdefinition

theorem WellFormed.id_lt_of_reads (h : program.WellFormed) {id : Nat}
    (hid : (program.command statement).Reads id) : id < program.declared.size := by
  obtain ⟨definition, hdefinition⟩ := h.defined_of_reads hid
  refine Nat.lt_of_not_le fun hle => ?_
  rw [definition?_eq_none_of_le hle] at hdefinition
  cases hdefinition

theorem exists_statement_of_at {P : Command K → Prop} {i : Nat}
    (h : Command.At program.code i P) :
    ∃ statement ∈ program.statements, P (program.command statement) := by
  obtain ⟨_, hc, hP⟩ := h
  obtain ⟨statement, hstatement, rfl⟩ := List.mem_map.1 (List.mem_of_getElem? hc)
  exact ⟨statement, Array.mem_toList_iff.1 hstatement, hP⟩

/-- What is stored later does not change the commands. -/
theorem code_eq (hext : program.Extends program') (h : program.WellFormed)
    (h' : program'.WellFormed) (hsame : program'.statements = program.statements)
    (hholds : ∀ statement ∈ program.statements, ∀ value ∈ statement.value?, program.Holds value) :
    program'.code = program.code := by
  rw [code, code, hsame]
  refine List.map_congr_left fun statement hstatement => ?_
  have hvalue := hholds statement (Array.mem_toList_iff.1 hstatement)
  cases statement with
  | assign _ value | augment _ value | bind _ value =>
    rw [command, command, hext.arena.tree_eq h.arena h'.arena (hvalue value rfl)]
  | space | comment _ => rfl

/-- What is stored later does not change the execution. -/
theorem execute_eq (hext : program.Extends program') (h : program.WellFormed)
    (h' : program'.WellFormed) (hsame : program'.statements = program.statements)
    (hholds : ∀ statement ∈ program.statements, ∀ value ∈ statement.value?, program.Holds value) :
    program'.execute β = program.execute β := by
  rw [execute, execute, code_eq hext h h' hsame hholds]
  refine Command.executeAll_congr fun c hc id hid => ?_
  obtain ⟨statement, -, rfl⟩ := List.mem_map.1 hc
  obtain ⟨name, hname⟩ := inputs_command h hid
  rw [hname, hext.arena.inputs id name hname]

theorem code_emit (hstatements : program'.statements = program.statements.push statement)
    (harena : program'.arena = program.arena) :
    program'.code = program.code ++ [program.command statement] := by
  have hcommand : program'.command = program.command := by
    funext statement
    cases statement <;> simp only [command, harena]
  rw [code, code, hstatements, Array.toList_push, List.map_append, hcommand, List.map_singleton]

/-- A tree has its value in a memory with the values of the variables. -/
theorem Remembers.value?_tree (hmemory : program.Remembers β slots memory)
    (h : program.WellFormed) (handle : Handle) :
    (program.arena.tree handle).value? (fun id => (program.arena.inputName? id).bind β) memory =
      program.eval? β handle := by
  refine h.value?_tree (fun id definition hdefinition => ?_) handle
  obtain ⟨x, hx, hid⟩ := hmemory.defined id definition hdefinition
  rw [hx, hid]

/-! ### What keeps the log -/

namespace Logged

theorem empty : ({} : Program K).Logged β 0 [] where
  holds _ h := by simp at h
  disciplined := .nil
  executed := by
    refine ⟨fun _ => none, rfl, fun id definition h => ?_, nofun⟩
    rw [definition?_eq_none_of_le (Nat.zero_le id)] at h
    cases h

/-- Expressions may be added, and variables without a definition. -/
theorem extend (h : program.Orderly β slots) (hlog : program.Logged β count slots)
    (hext : program.Extends program') (h' : program'.WellFormed)
    (hsame : program'.statements = program.statements)
    (hdefinitions : ∀ id, program'.definition? id = program.definition? id) :
    program'.Logged β count slots where
  holds statement hstatement value hvalue := by
    rw [hsame] at hstatement
    obtain ⟨node, hnode⟩ := Arena.exists_node? (hlog.holds statement hstatement value hvalue)
    exact Arena.index_lt_of_node? (hext.arena.nodes value node hnode)
  disciplined := by
    rw [code_eq hext h.wellFormed h' hsame hlog.holds]
    exact hlog.disciplined
  executed := by
    obtain ⟨memory, hexecute, hmemory⟩ := hlog.executed
    rw [execute_eq hext h.wellFormed h' hsame hlog.holds]
    refine ⟨memory, hexecute, fun id definition hdefinition => ?_, fun slot hslot => ?_⟩
    · rw [hdefinitions] at hdefinition
      obtain ⟨x, hx, hid⟩ := hmemory.defined id definition hdefinition
      exact ⟨x, hext.eval?_eq h.wellFormed h' hx, hid⟩
    · rw [(h.keeps hext h').storages slot hslot]
      exact hmemory.summed slot hslot

theorem stores (h : program.Orderly β slots) (hlog : program.Logged β count slots)
    (hstores : program.Stores program') (hsame : program'.statements = program.statements) :
    program'.Logged β count slots :=
  hlog.extend h hstores.toExtends hstores.wellFormed hsame (definition?_congr hstores.declared)

theorem sublist (hlog : program.Logged β count slots) {fewer : List Slot}
    (hsub : ∀ slot ∈ fewer, slot ∈ slots) : program.Logged β count fewer := by
  obtain ⟨memory, hexecute, hmemory⟩ := hlog.executed
  exact ⟨hlog.holds, hlog.disciplined, memory, hexecute, hmemory.defined,
    fun slot hslot => hmemory.summed slot (hsub slot hslot)⟩

/-- An open variable is completed by an expression of its sum. -/
theorem define (h : program.Orderly β (slot :: slots))
    (hlog : program.Logged β count (slot :: slots)) {definition : Handle}
    (hdefinition : program.eval? β definition = some ((reading β).stored program slot)) :
    Yields (define slot.id definition) program fun _ program' =>
      program'.declared.size = program.declared.size ∧ program'.Logged β count slots := by
  have hid := h.isOpen slot List.mem_cons_self
  obtain ⟨hext, h', -⟩ := Orderly.define_yields h definition
  obtain ⟨memory, hexecute, hmemory⟩ := hlog.executed
  have hsame : ((Program.define slot.id definition).run program).2.statements =
      program.statements := rfl
  refine ⟨Array.size_modify, fun statement hstatement => ?_, ?_, memory, ?_,
    fun id other hother => ?_, fun other hslot => ?_⟩
  · exact hlog.holds statement hstatement
  · rw [code_eq hext h.wellFormed h'.wellFormed hsame hlog.holds]
    exact hlog.disciplined
  · rw [execute_eq hext h.wellFormed h'.wellFormed hsame hlog.holds]
    exact hexecute
  · rw [definition?_modify rfl] at hother
    split at hother
    · rename_i heq
      obtain rfl := Option.some.inj hother
      obtain ⟨rfl, -⟩ := heq
      exact ⟨_, hext.eval?_eq h.wellFormed h'.wellFormed hdefinition,
        hmemory.summed slot List.mem_cons_self⟩
    · obtain ⟨x, hx, hid⟩ := hmemory.defined id other hother
      exact ⟨x, hext.eval?_eq h.wellFormed h'.wellFormed hx, hid⟩
  · have hmem := List.mem_cons_of_mem slot hslot
    rw [(h.keeps hext h'.wellFormed).storages other hmem]
    exact hmemory.summed other hmem

/-! ### Statements -/

/-- **A statement is added to the log.** It may declare the new variables, add to open ones, and
read old ones. -/
theorem emit (h : program.WellFormed) (hlog : program.Logged β count slots) {count' : Nat}
    {slots' : List Slot} (hcount : count ≤ count')
    (hdeclares : ∀ id, (program.command statement).Declares id ↔ count ≤ id ∧ id < count')
    (haugments : ∀ id, (program.command statement).Augments id → id < count ∧ program.IsOpen id)
    (hreads : ∀ id, (program.command statement).Reads id → id < count)
    (hholds : ∀ value ∈ statement.value?, program.Holds value)
    (hexecute : ∀ memory, program.Remembers β slots memory → ∃ memory',
      (program.command statement).execute (fun id => (program.arena.inputName? id).bind β) memory =
        some memory' ∧ ∀ program', program.Stores program' →
          program'.Remembers β slots' memory') :
    Yields (Program.emit statement) program fun _ program' =>
      program'.Logged β count' slots' := by
  have hstores := emit_yields h statement
  have hcode : ((Program.emit statement).run program).2.code =
      program.code ++ [program.command statement] := code_emit rfl rfl
  refine ⟨fun other hother value hvalue => ?_, ?_, ?_⟩
  · rcases Array.mem_push.1 hother with hother | rfl
    · exact hlog.holds other hother value hvalue
    · exact hholds value hvalue
  · rw [hcode]
    refine hlog.disciplined.concat hcount hdeclares (fun id hid => ?_) hreads
    obtain ⟨hlt, hopen⟩ := haugments id hid
    refine ⟨hlt, h.not_reads_of_open hopen, fun i hi => ?_⟩
    obtain ⟨other, -, hother⟩ := exists_statement_of_at hi
    exact h.not_reads_of_open hopen hother
  · obtain ⟨memory, hrun, hmemory⟩ := hlog.executed
    obtain ⟨memory', hstep, hmemory'⟩ := hexecute memory hmemory
    refine ⟨memory', ?_, hmemory' _ hstores⟩
    rw [execute, hcode, Command.executeAll_concat]
    change (program.execute β).bind _ = _
    rw [hrun]
    exact hstep

/-- A separator or a remark. -/
theorem emit_skip (statement : Statement) (h : program.Orderly β slots)
    (hlog : program.Logged β count slots) (hskip : program.command statement = .skip) :
    Yields (Program.emit statement) program fun _ program' => program'.Logged β count slots := by
  refine emit h.wellFormed hlog le_rfl ?_ ?_ ?_ ?_ fun memory hmemory => ⟨memory, ?_, ?_⟩
  · rw [hskip]
    exact fun id => ⟨False.elim, fun hid => absurd hid.2 (Nat.not_lt.2 hid.1)⟩
  · rw [hskip]
    exact fun _ => False.elim
  · rw [hskip]
    exact fun _ => False.elim
  · cases statement with
    | assign _ _ | augment _ _ | bind _ _ => cases hskip
    | space | comment _ => nofun
  · rw [hskip, Command.execute]
  · refine fun program' hstores => ⟨fun id definition hdefinition => ?_, fun slot hslot => ?_⟩
    · rw [definition?_congr hstores.declared] at hdefinition
      obtain ⟨x, hx, hid⟩ := hmemory.defined id definition hdefinition
      exact ⟨x, hstores.toExtends.eval?_eq h.wellFormed hstores.wellFormed hx, hid⟩
    · rw [(h.keeps hstores.toExtends hstores.wellFormed).storages slot hslot]
      exact hmemory.summed slot hslot

end Logged

variable [ExactNumber K]

/-- The memory after a term was added to a component. -/
theorem Remembers.append (h : program.Orderly β (slot :: slots))
    (hmemory : program.Remembers β slots memory) (hx : program.eval? β handle = some x)
    (hstores : program.Stores program') :
    program'.Remembers β ({ slot with terms := slot.terms ++ [handle] } :: slots)
      (Function.update memory slot.id (some ((reading β).stored program slot + x))) where
  defined id definition hdefinition := by
    rw [definition?_congr hstores.declared] at hdefinition
    have hne : id ≠ slot.id := by
      rintro rfl
      rw [(h.isOpen slot List.mem_cons_self).definition?_eq_none] at hdefinition
      cases hdefinition
    obtain ⟨y, hy, hid⟩ := hmemory.defined id definition hdefinition
    refine ⟨y, hstores.toExtends.eval?_eq h.wellFormed hstores.wellFormed hy, ?_⟩
    rw [Function.update_of_ne hne, hid]
  summed other hother := by
    have hkeeps := h.keeps hstores.toExtends hstores.wellFormed
    rcases List.mem_cons.1 hother with rfl | hother
    · have hx' := hstores.toExtends.eval?_eq h.wellFormed hstores.wellFormed hx
      rw [Function.update_self, stored_append, val_of_eval? hx',
        hkeeps.storages slot List.mem_cons_self]
    · have hne : other.id ≠ slot.id := fun heq =>
        (List.nodup_cons.1 h.nodup).1 (heq ▸ List.mem_map_of_mem hother)
      rw [Function.update_of_ne hne, hkeeps.storages other (List.mem_cons_of_mem slot hother)]
      exact hmemory.summed other hother

namespace Logged

/-- The first term of a new variable. -/
theorem emit_declare (statement : Statement) (h : program.Orderly β ({ id := count } :: slots))
    (hsize : program.declared.size = count + 1) (hlog : program.Logged β count slots)
    (hx : program.eval? β handle = some x)
    (hcommand : program.command statement = .declare count (program.arena.tree handle))
    (hvalue : statement.value? = some handle) :
    Yields (Program.emit statement) program fun _ program' =>
      program'.Logged β (count + 1) ({ id := count, terms := [handle] } :: slots) := by
  have hopen := h.isOpen { id := count } List.mem_cons_self
  refine emit h.wellFormed hlog (Nat.le_succ count) ?_ ?_ (fun id hid => ?_) ?_
    fun memory hmemory => ⟨_, ?_, fun program' hstores => hmemory.append h hx hstores⟩
  · rw [hcommand]
    intro id
    rw [Command.Declares]
    omega
  · rw [hcommand]
    exact fun _ => False.elim
  · have hlt := h.wellFormed.id_lt_of_reads hid
    have hne : id ≠ count := by
      rintro rfl
      exact h.wellFormed.not_reads_of_open hopen hid
    omega
  · rw [hvalue]
    rintro _ ⟨⟩
    exact h.wellFormed.holds_of_eval? hx
  · rw [hcommand, Command.execute, hmemory.value?_tree h.wellFormed, hx, Option.bind_eq_bind,
      Option.bind_some]
    refine congrArg some (congrArg _ (congrArg some ?_))
    exact (zero_add x).symm

/-- A further term of an open component. -/
theorem emit_augment (h : program.Orderly β (slot :: slots))
    (hlog : program.Logged β program.declared.size (slot :: slots))
    (hx : program.eval? β handle = some x) :
    Yields (Program.emit (.augment slot.id handle)) program fun _ program' =>
      program'.Logged β program'.declared.size
        ({ slot with terms := slot.terms ++ [handle] } :: slots) := by
  have hopen := h.isOpen slot List.mem_cons_self
  refine emit h.wellFormed hlog le_rfl (fun id => ?_) ?_ (fun id => h.wellFormed.id_lt_of_reads) ?_
    fun memory hmemory => ?_
  · exact ⟨False.elim, fun hid => absurd hid.2 (Nat.not_lt.2 hid.1)⟩
  · rintro _ rfl
    exact ⟨hopen.id_lt, hopen⟩
  · rintro _ ⟨⟩
    exact h.wellFormed.holds_of_eval? hx
  · have hrest : program.Remembers β slots memory :=
      ⟨hmemory.defined, fun other hother => hmemory.summed other (List.mem_cons_of_mem slot hother)⟩
    refine ⟨_, ?_, fun program' hstores => hrest.append h hx hstores⟩
    rw [command, Command.execute, hmemory.value?_tree h.wellFormed, hx,
      hmemory.summed slot List.mem_cons_self]
    rfl

end Logged

/-! ### Calls -/

omit [ExactNumber K] in
theorem onArena_silent {α : Type} (action : StateM (Arena K) α) (program : Program K) :
    Yields (onArena action) program fun _ program' => program'.statements = program.statements :=
  rfl

omit [ExactNumber K] in
theorem factorHandle_silent (f : Factor K Handle) (program : Program K) :
    Yields (factorHandle f) program fun _ program' =>
      program'.statements = program.statements := by
  cases f with
  | number x => exact onArena_silent _ program
  | symbol handle => exact .pure rfl

omit [ExactNumber K] in
theorem factorHandles_silent (term : Term K Handle) (program : Program K) :
    Yields (term.mapM factorHandle) program fun _ program' =>
      program'.statements = program.statements := by
  induction term generalizing program with
  | nil => exact .pure rfl
  | cons f rest ih =>
    rw [List.mapM_cons]
    refine Yields.bind (Yields.mono (factorHandle_silent f program) ?_)
    intro _ program₁ hsame₁
    refine Yields.bind (Yields.mono (ih program₁) ?_)
    exact fun _ program₂ hsame₂ => .pure (hsame₂.trans hsame₁)

/-- A term is emitted by a single statement, once its expression is stored. -/
theorem emitTerm_yields_emit (h : program.WellFormed) {term : Term K Handle}
    (hterm : (reading β).KnownTerm program term) (slot : Slot) (negate init : Bool) :
    Yields (emitTerm slot term negate init) program fun slot' program' =>
      ∃ prior handle, program.Stores prior ∧ prior.statements = program.statements ∧
        prior.Valued β handle ∧ slot' = { slot with terms := slot.terms ++ [handle] } ∧
        program' = ((emit (if init then .assign slot.id handle
          else .augment slot.id handle)).run prior).2 := by
  unfold emitTerm
  have hfiltered : (reading β).KnownTerm program (term.filter fun f => !f.isOne) :=
    fun f hf => hterm f (List.mem_filter.1 hf).1
  refine Yields.bind (Yields.mono
    ((factorHandles_yields h hfiltered).and (factorHandles_silent _ program)) ?_)
  rintro handles program₁ ⟨⟨hstores₁, hvalued, -⟩, hsame₁⟩
  refine Yields.bind (Yields.mono
    ((product_yields hstores₁.wellFormed hvalued).and (onArena_silent _ program₁)) ?_)
  rintro product program₂ ⟨⟨hstores₂, hproduct⟩, hsame₂⟩
  have hstores := hstores₁.trans hstores₂
  have hsame := hsame₂.trans hsame₁
  cases negate with
  | false => exact ⟨program₂, product, hstores, hsame, ⟨_, hproduct⟩, rfl, rfl⟩
  | true =>
    refine Yields.bind (Yields.mono
      ((negate_yields hstores₂.wellFormed hproduct).and (onArena_silent _ program₂)) ?_)
    rintro signed program₃ ⟨⟨hstores₃, hsigned⟩, hsame₃⟩
    exact ⟨program₃, signed, hstores.trans hstores₃, hsame₃.trans hsame, ⟨_, hsigned⟩, rfl, rfl⟩

namespace Logged

omit [ExactNumber K] in
/-- A new variable is not yet part of the log. -/
theorem newVariable (h : program.Orderly β slots)
    (hlog : program.Logged β program.declared.size slots) (hint : String) :
    Yields (Program.newVariable hint) program fun id program' =>
      id = program.declared.size ∧ program'.declared.size = id + 1 ∧
        program'.Logged β id slots := by
  obtain ⟨hext, h', -⟩ := Program.newVariable_yields h.wellFormed hint
  refine ⟨rfl, Array.size_push _, hlog.extend h hext h' rfl ?_⟩
  exact definition?_push rfl rfl

/-- A component is opened with its first term. -/
theorem opens (h : program.Orderly β slots) (hlog : program.Logged β program.declared.size slots)
    (hint : String) {term : Term K Handle} (hterm : (reading β).KnownTerm program term)
    (negate : Bool) :
    Yields (do let slot ← openSlot hint; emitTerm slot term negate true) program
      fun slot program' => program'.Logged β program'.declared.size (slot :: slots) := by
  refine Yields.bind (Yields.bind (Yields.mono ((h.newVariable_yields hint).and
    (hlog.newVariable h hint)) ?_))
  rintro id program₁ ⟨⟨hext₁, h₁⟩, -, hsize₁, hlog₁⟩
  have hterm₁ : (reading β).KnownTerm program₁ term :=
    (h.keeps hext₁ h₁.wellFormed).symbols.knownTerm hterm
  refine Yields.pure (a := ({ id } : Slot)) ?_
  refine Yields.mono (emitTerm_yields_emit h₁.wellFormed hterm₁ { id } negate true) ?_
  rintro _ _ ⟨program₂, handle, hstores₂, hsame₂, ⟨x, hx⟩, rfl, rfl⟩
  have h₂ := h₁.stores hstores₂
  have hsize₂ : program₂.declared.size = id + 1 := by rw [hstores₂.declared, hsize₁]
  have hrest : program₁.Orderly β slots := ⟨h₁.wellFormed, (List.nodup_cons.1 h₁.nodup).2,
    fun slot hslot => h₁.isOpen slot (List.mem_cons_of_mem _ hslot),
    fun slot hslot => h₁.valued slot (List.mem_cons_of_mem _ hslot)⟩
  have hlog₂ := hlog₁.stores hrest hstores₂ hsame₂
  have hdone := hlog₂.emit_declare (.assign id handle) h₂ hsize₂ hx rfl rfl
  rw [← hsize₂] at hdone
  exact hdone

/-- A further term is added to a component. -/
theorem augments (h : program.Orderly β (slot :: slots))
    (hlog : program.Logged β program.declared.size (slot :: slots)) {term : Term K Handle}
    (hterm : (reading β).KnownTerm program term) (negate : Bool) :
    Yields (emitTerm slot term negate false) program
      fun slot' program' => program'.Logged β program'.declared.size (slot' :: slots) := by
  refine Yields.mono (emitTerm_yields_emit h.wellFormed hterm slot negate false) ?_
  rintro _ _ ⟨prior, handle, hstores, hsame, ⟨x, hx⟩, rfl, rfl⟩
  have hlog' := hlog.stores h hstores hsame
  rw [← hstores.declared] at hlog'
  exact hlog'.emit_augment (h.stores hstores) hx

/-- A component is closed. -/
theorem closes (h : program.Orderly β (slot :: slots))
    (hlog : program.Logged β program.declared.size (slot :: slots)) :
    Yields (closeSlot slot) program
      fun _ program' => program'.Logged β program'.declared.size slots := by
  have hterms := h.valued slot List.mem_cons_self
  refine Yields.bind (Yields.mono
    ((sum_yields h.wellFormed hterms).and (onArena_silent _ program)) ?_)
  rintro definition program₁ ⟨⟨hstores₁, hx⟩, hsame₁⟩
  have h₁ := h.stores hstores₁
  have hlog₁ := hlog.stores h hstores₁ hsame₁
  have hsum := (h.keeps hstores₁.toExtends hstores₁.wellFormed).storages slot List.mem_cons_self
  rw [← show _ = List.sum _ from hsum] at hx
  refine Yields.bind (Yields.mono ((h₁.define_yields definition).and (hlog₁.define h₁ hx)) ?_)
  rintro _ program₂ ⟨⟨hext₂, h₂, hdefinition⟩, hsize₂, hlog₂⟩
  have hx₂ := hext₂.eval?_eq h₁.wellFormed h₂.wellFormed hx
  refine Yields.mono ((read_yields h₂.wellFormed hdefinition hx₂).and (onArena_silent _ _)) ?_
  rintro handle program₃ ⟨⟨⟨hstores₃, -⟩, -⟩, hsame₃⟩
  have hsize₃ : program₃.declared.size = program.declared.size := by
    rw [hstores₃.declared, hsize₂, hstores₁.declared]
  rw [hsize₃]
  exact hlog₂.stores h₂ hstores₃ hsame₃

/-- A variable is declared and defined by the same expression. -/
theorem bind (h : program.Orderly β ({ id := count } :: slots))
    (hsize : program.declared.size = count + 1) (hlog : program.Logged β count slots)
    (hx : program.eval? β handle = some x) :
    Yields (do Program.define count handle; Program.emit (.bind count handle)) program
      fun _ program' => program.Extends program' ∧ program'.Orderly β slots ∧
        program'.declared.size = count + 1 ∧ program'.definition? count = some handle ∧
        program'.Logged β (count + 1) slots := by
  -- The two actions commute. Seen the other way round, the expression is the first and only term
  -- of the variable, which is closed at once.
  have hswap : Yields (do Program.emit (.bind count handle); Program.define count handle) program
      fun _ program' => program.Extends program' ∧ program'.Orderly β slots ∧
        program'.declared.size = count + 1 ∧ program'.definition? count = some handle ∧
        program'.Logged β (count + 1) slots := by
    refine Yields.bind (Yields.mono ((emit_yields h.wellFormed (.bind count handle)).and
      (hlog.emit_declare (.bind count handle) h hsize hx rfl rfl)) ?_)
    rintro _ program₁ ⟨hstores₁, hlog₁⟩
    have hx₁ := hstores₁.toExtends.eval?_eq h.wellFormed hstores₁.wellFormed hx
    have h₁ := (h.stores hstores₁).append ⟨x, hx₁⟩
    have hsum : program₁.eval? β handle =
        some ((reading β).stored program₁ { id := count, terms := [handle] }) := by
      rw [hx₁, ← val_of_eval? hx₁]
      exact congrArg some (List.sum_singleton).symm
    refine Yields.mono ((h₁.define_yields handle).and (hlog₁.define h₁ hsum)) ?_
    rintro _ program₂ ⟨⟨hext₂, h₂, hdefinition⟩, hsize₂, hlog₂⟩
    exact ⟨hstores₁.toExtends.trans hext₂, h₂, by rw [hsize₂, hstores₁.declared, hsize],
      hdefinition, hlog₂⟩
  exact hswap

/-- An expression gets a variable of its own. -/
theorem temporary (h : program.Orderly β slots)
    (hlog : program.Logged β program.declared.size slots) {expression : Handle}
    (hx : program.eval? β expression = some x) (hint : String) :
    Yields (Program.temporary expression hint) program
      fun _ program' => program'.Logged β program'.declared.size slots := by
  unfold Program.temporary
  refine Yields.bind (Yields.get ?_)
  split
  · exact .pure hlog
  · refine Yields.bind (Yields.mono ((h.newVariable_yields hint).and
      (hlog.newVariable h hint)) ?_)
    rintro id program₁ ⟨⟨hext₁, h₁⟩, -, hsize₁, hlog₁⟩
    have hx₁ := hext₁.eval?_eq h.wellFormed h₁.wellFormed hx
    rw [← bind_assoc]
    refine Yields.bind (Yields.mono (hlog₁.bind h₁ hsize₁ hx₁) ?_)
    rintro _ program₂ ⟨hext₂, h₂, hsize₂, hdefinition, hlog₂⟩
    have hx₂ := hext₂.eval?_eq h₁.wellFormed h₂.wellFormed hx₁
    refine Yields.bind (Yields.mono
      ((read_yields h₂.wellFormed hdefinition hx₂).and (onArena_silent _ program₂)) ?_)
    rintro handle program₃ ⟨⟨⟨hstores₃, -⟩, hnode⟩, hsame₃⟩
    have hremember := Stores.remember hstores₃.wellFormed hnode
      (hstores₃.toExtends.definitions id expression hdefinition)
    refine Yields.bind (Yields.modify (.pure ?_))
    have hlog₄ := hlog₂.stores h₂ (hstores₃.trans hremember) hsame₃
    rw [← hsize₂, ← (hstores₃.trans hremember).declared] at hlog₄
    exact hlog₄

theorem applyFunction (h : program.Orderly β slots)
    (hlog : program.Logged β program.declared.size slots) (f : ScalarFunction)
    {args : Term K Handle} (hargs : (reading β).KnownTerm program args) :
    Yields (Program.applyFunction f args) program
      fun _ program' => program'.Logged β program'.declared.size slots := by
  refine Yields.bind (Yields.mono
    ((factorHandles_yields h.wellFormed hargs).and (factorHandles_silent _ program)) ?_)
  rintro handles program₁ ⟨⟨hstores₁, hvalued, -⟩, hsame₁⟩
  refine Yields.bind (Yields.mono
    ((call_yields hstores₁.wellFormed f hvalued).and (onArena_silent _ program₁)) ?_)
  rintro expression program₂ ⟨⟨hstores₂, hx⟩, hsame₂⟩
  have hstores := hstores₁.trans hstores₂
  have hlog₂ := hlog.stores h hstores (hsame₂.trans hsame₁)
  rw [← hstores.declared] at hlog₂
  exact hlog₂.temporary (h.stores hstores) hx f.name

theorem applyOperator (h : program.Orderly β slots)
    (hlog : program.Logged β program.declared.size slots) (op : Operator)
    {l r : Factor K Handle} (hl : (reading β).Known program l)
    (hr : (reading β).Known program r) :
    Yields (Program.applyOperator op l r) program
      fun _ program' => program'.Logged β program'.declared.size slots := by
  refine Yields.bind (Yields.mono
    ((factorHandle_yields h.wellFormed hl).and (factorHandle_silent l program)) ?_)
  rintro left program₁ ⟨⟨hstores₁, hleft⟩, hsame₁⟩
  have hkeeps := h.keeps hstores₁.toExtends hstores₁.wellFormed
  refine Yields.bind (Yields.mono ((factorHandle_yields hstores₁.wellFormed
    (hkeeps.symbols.known hr)).and (factorHandle_silent r program₁)) ?_)
  rintro right program₂ ⟨⟨hstores₂, hright⟩, hsame₂⟩
  have hleft₂ := hstores₂.toExtends.eval?_eq hstores₁.wellFormed hstores₂.wellFormed hleft
  refine Yields.bind (Yields.mono ((binary_yields hstores₂.wellFormed op ⟨_, hleft₂⟩
    ⟨_, hright⟩).and (onArena_silent _ program₂)) ?_)
  rintro expression program₃ ⟨⟨hstores₃, hx⟩, hsame₃⟩
  have hstores := (hstores₁.trans hstores₂).trans hstores₃
  have hlog₃ := hlog.stores h hstores ((hsame₃.trans hsame₂).trans hsame₁)
  rw [← hstores.declared] at hlog₃
  exact hlog₃.temporary (h.stores hstores) hx "t"

end Logged

/-! ### The reading -/

/-- The reading of a program, where storages are open only if the statements can be executed. -/
def logReading (β : String → Option K) : Reading (Program K) K Handle Slot :=
  (reading β).strengthen fun program slots => program.Logged β program.declared.size slots

theorem preserves_logged : (reading β : Reading (Program K) K Handle Slot).Preserves
    fun program slots => program.Logged β program.declared.size slots where
  sublist _ hlog hsub := hlog.sublist hsub
  opens _ name _ negate h hlog hterm := hlog.opens h name hterm negate
  augments negate h hlog hterm := hlog.augments h hterm negate
  closes h hlog := hlog.closes h
  calls _ f _ h hlog hargs := hlog.applyFunction h f hargs
  combines _ op _ _ h hlog hl hr := hlog.applyOperator h op hl hr
  spaces h hlog := hlog.emit_skip .space h rfl
  comments text h hlog := hlog.emit_skip (.comment text) h rfl

/-- **Every call to a program keeps its statements executable.** -/
theorem sound_logReading : (logReading β : Reading (Program K) K Handle Slot).Sound :=
  sound_reading.strengthen preserves_logged

end Program

end Clifford

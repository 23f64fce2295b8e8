import Clifford.Proofs.Program.Naming
import Clifford.Proofs.Target.Steady

/-!
# Programs only grow

No call to a program changes what was recorded before: expressions stay where they are, statements
and variables are added at the end, and a definition is never replaced. This holds for numbers of
any kind, and also while components are open, whose variables are defined later.

## Main definitions

- `Program.Continues` — everything that was recorded is still there, and in its place
- `Program.Adds` — only expressions were added
- `Program.Intact` — a well-formed program with some open components
- `Program.heldReading` — the reading of a program that tells which expressions are stored, and
  that it continues another one

## Main results

- `Program.emitTerm_continues`, `Program.closeSlot_continues`, … — every call continues a program
- `Program.steady_heldReading` — the reading is steady
-/

namespace Clifford

namespace Program

variable {K : Type} [Number K]

/-- Everything that was recorded is still there, and in its place. -/
structure Continues (program program' : Program K) : Prop extends Extends program program' where
  /-- Statements are added at the end. -/
  statements : program.statements.toList <+: program'.statements.toList
  /-- So are variables, and they keep their names. -/
  names : program.names <+: program'.names
  /-- Expressions keep their temporaries. -/
  temporaries : ∀ expression handle : Handle, program.temporaries[expression]? = some handle →
    program'.temporaries[expression]? = some handle

/-- Only expressions were added. -/
structure Adds (program program' : Program K) : Prop extends Stores program program' where
  statements : program'.statements = program.statements
  temporaries : program'.temporaries = program.temporaries

/-- A well-formed program, and open variables of it whose terms are stored. -/
structure Intact (program : Program K) (slots : List Slot) : Prop where
  wellFormed : program.WellFormed
  /-- No two components have the same variable. -/
  nodup : (slots.map Slot.id).Nodup
  isOpen : ∀ slot ∈ slots, program.IsOpen slot.id
  held : ∀ slot ∈ slots, ∀ handle ∈ slot.terms, program.Holds handle

variable {program program' program'' : Program K} {slots : List Slot} {slot : Slot}
  {handle : Handle}

namespace Continues

theorem refl (program : Program K) : program.Continues program :=
  ⟨.refl program, List.prefix_refl _, List.prefix_refl _, fun _ _ h => h⟩

theorem trans (h : program.Continues program') (h' : program'.Continues program'') :
    program.Continues program'' where
  toExtends := h.toExtends.trans h'.toExtends
  statements := h.statements.trans h'.statements
  names := h.names.trans h'.names
  temporaries _ _ hhit := h'.temporaries _ _ (h.temporaries _ _ hhit)

end Continues

theorem continues_empty (program : Program K) : ({} : Program K).Continues program where
  arena := ⟨fun _ _ h => by simp [Arena.node?] at h, fun _ _ h => by
    simp [Arena.inputName?, Interner.value?] at h⟩
  definitions id _ h := by simp [definition?, variableAt?] at h
  statements := List.nil_prefix
  names := List.nil_prefix
  temporaries _ _ h := by simp at h

namespace Adds

theorem refl (h : program.WellFormed) : program.Adds program := ⟨.refl h, rfl, rfl⟩

theorem trans (h : program.Adds program') (h' : program'.Adds program'') :
    program.Adds program'' :=
  ⟨h.toStores.trans h'.toStores, h'.statements.trans h.statements,
    h'.temporaries.trans h.temporaries⟩

theorem continues (h : program.Adds program') : program.Continues program' where
  toExtends := h.toStores.toExtends
  statements := by rw [h.statements]
  names := by rw [names, names, h.declared]
  temporaries _ _ hhit := by rwa [h.temporaries]

end Adds

theorem Extends.holds (hext : program.Extends program') (h : program.Holds handle) :
    program'.Holds handle := by
  obtain ⟨node, hnode⟩ := Arena.exists_node? h
  exact Arena.index_lt_of_node? (hext.arena.nodes handle node hnode)

namespace Intact

theorem empty : ({} : Program K).Intact [] :=
  ⟨wellFormed_empty, List.nodup_nil, nofun, nofun⟩

theorem stores (h : program.Intact slots) (hstores : program.Stores program') :
    program'.Intact slots where
  wellFormed := hstores.wellFormed
  nodup := h.nodup
  isOpen slot hslot := hstores.isOpen (h.isOpen slot hslot)
  held slot hslot handle hhandle := hstores.toExtends.holds (h.held slot hslot handle hhandle)

theorem perm {slots' : List Slot} (h : program.Intact slots) (hperm : slots.Perm slots') :
    program.Intact slots' :=
  ⟨h.wellFormed, (hperm.map Slot.id).nodup_iff.1 h.nodup,
    fun slot hslot => h.isOpen slot (hperm.mem_iff.2 hslot),
    fun slot hslot => h.held slot (hperm.mem_iff.2 hslot)⟩

theorem append (h : program.Intact (slot :: slots)) (hhandle : program.Holds handle) :
    program.Intact ({ slot with terms := slot.terms ++ [handle] } :: slots) := by
  obtain ⟨hopen, hothers⟩ := List.forall_mem_cons.1 h.isOpen
  obtain ⟨hheld, hheld'⟩ := List.forall_mem_cons.1 h.held
  refine ⟨h.wellFormed, h.nodup, List.forall_mem_cons.2 ⟨hopen, hothers⟩,
    List.forall_mem_cons.2 ⟨?_, hheld'⟩⟩
  exact List.forall_mem_append.2 ⟨hheld, List.forall_mem_singleton.2 hhandle⟩

end Intact

/-! ### Expressions -/

theorem node_adds (h : program.WellFormed) {node : Node K} (hnode : program.Admits node) :
    Yields (onArena (Arena.store node)) program fun handle program' =>
      program.Adds program' ∧ program'.arena.node? handle = some node := by
  obtain ⟨hstores, hstored⟩ := store_yields h hnode
  exact ⟨⟨hstores, rfl, rfl⟩, hstored⟩

/-- An expression of stored operands is stored. -/
theorem operation_adds (h : program.WellFormed) (node : Node K) (hinput : ∀ id, node ≠ .input id)
    (hread : ∀ id, node ≠ .read id) (hheld : ∀ child ∈ node.children, program.Holds child) :
    Yields (onArena (Arena.store node)) program fun handle program' =>
      program.Adds program' ∧ program'.Holds handle := by
  have hadmits : program.Admits node :=
    ⟨⟨hheld, fun id hid => absurd hid (hinput id)⟩, fun id hid => absurd hid (hread id)⟩
  refine Yields.mono (node_adds h hadmits) ?_
  rintro handle program' ⟨hadds, hstored⟩
  exact ⟨hadds, Arena.index_lt_of_node? hstored⟩

theorem number_adds (h : program.WellFormed) (x : K) :
    Yields (onArena (Arena.number x)) program fun handle program' =>
      program.Adds program' ∧ program'.Holds handle :=
  operation_adds h (.ofNumber x) nofun nofun nofun

theorem input_adds (h : program.WellFormed) (name : String) :
    Yields (onArena (Arena.input name)) program fun handle program' =>
      program.Adds program' ∧ program'.Holds handle := by
  unfold Arena.input
  rw [onArena_bind]
  have hsilent : Yields (onArena (Arena.internInput name)) program fun _ program' =>
      program'.statements = program.statements ∧ program'.temporaries = program.temporaries :=
    ⟨rfl, rfl⟩
  refine Yields.bind (Yields.mono ((internInput_yields h name).and hsilent) ?_)
  rintro id program₁ ⟨⟨hstores, hname⟩, hstatements, htemporaries⟩
  have hadmits : program₁.Admits (.input id) := by
    refine ⟨⟨nofun, fun other hother => ?_⟩, nofun⟩
    cases hother
    exact ⟨name, hname⟩
  refine Yields.mono (node_adds hstores.wellFormed hadmits) ?_
  rintro handle program₂ ⟨hadds, hstored⟩
  exact ⟨.trans ⟨hstores, hstatements, htemporaries⟩ hadds, Arena.index_lt_of_node? hstored⟩

theorem negate_adds (h : program.WellFormed) (hhandle : program.Holds handle) :
    Yields (onArena (Arena.negate handle)) program fun handle program' =>
      program.Adds program' ∧ program'.Holds handle := by
  obtain ⟨operand, hnode, hrun⟩ | hrun := Arena.negate_cases program.arena handle
  · have hlt : operand.index < program.arena.size :=
      Nat.lt_trans (h.arena.children_lt handle _ hnode operand List.mem_cons_self) hhandle
    exact onArena_yields hrun (.pure ⟨.refl h, hlt⟩)
  · exact onArena_yields hrun (operation_adds h (.negation handle) nofun nofun
      (List.forall_mem_singleton.2 hhandle))

theorem holds_sorted {handles : List Handle} (hheld : ∀ handle ∈ handles, program.Holds handle) :
    ∀ handle ∈ Arena.sorted handles, program.Holds handle :=
  fun handle hhandle => hheld handle ((sorted_perm handles).mem_iff.1 hhandle)

theorem product_adds (h : program.WellFormed) {handles : List Handle}
    (hheld : ∀ handle ∈ handles, program.Holds handle) :
    Yields (onArena (Arena.product handles)) program fun handle program' =>
      program.Adds program' ∧ program'.Holds handle := by
  match handles with
  | [] => exact number_adds h 1
  | [handle] => exact .pure ⟨.refl h, hheld handle List.mem_cons_self⟩
  | _ :: _ :: _ =>
    exact operation_adds h (.product (Arena.sorted _)) nofun nofun (holds_sorted hheld)

theorem sum_adds (h : program.WellFormed) {handles : List Handle}
    (hheld : ∀ handle ∈ handles, program.Holds handle) :
    Yields (onArena (Arena.sum handles)) program fun handle program' =>
      program.Adds program' ∧ program'.Holds handle := by
  match handles with
  | [] => exact number_adds h 0
  | [handle] => exact .pure ⟨.refl h, hheld handle List.mem_cons_self⟩
  | _ :: _ :: _ => exact operation_adds h (.sum (Arena.sorted _)) nofun nofun (holds_sorted hheld)

/-- The factor is a number, or its expression is stored. -/
def HoldsFactor (program : Program K) (f : Factor K Handle) : Prop :=
  ∀ handle, f = .symbol handle → program.Holds handle

theorem Extends.holdsFactor {f : Factor K Handle} (hext : program.Extends program')
    (h : program.HoldsFactor f) : program'.HoldsFactor f :=
  fun handle hf => hext.holds (h handle hf)

theorem factorHandle_adds (h : program.WellFormed) {f : Factor K Handle}
    (hf : program.HoldsFactor f) :
    Yields (factorHandle f) program fun handle program' =>
      program.Adds program' ∧ program'.Holds handle := by
  cases f with
  | number x => exact number_adds h x
  | symbol handle => exact .pure ⟨.refl h, hf handle rfl⟩

theorem factorHandles_adds (h : program.WellFormed) {term : Term K Handle}
    (hterm : ∀ f ∈ term, program.HoldsFactor f) :
    Yields (term.mapM factorHandle) program fun handles program' =>
      program.Adds program' ∧ ∀ handle ∈ handles, program'.Holds handle := by
  induction term generalizing program with
  | nil => exact .pure ⟨.refl h, nofun⟩
  | cons f rest ih =>
    obtain ⟨hf, hrest⟩ := List.forall_mem_cons.1 hterm
    rw [List.mapM_cons]
    refine Yields.bind (Yields.mono (factorHandle_adds h hf) ?_)
    rintro handle program₁ ⟨hadds₁, hhandle⟩
    have hrest₁ := fun g hg => hadds₁.continues.toExtends.holdsFactor (hrest g hg)
    refine Yields.bind (Yields.mono (ih hadds₁.wellFormed hrest₁) ?_)
    rintro handles program₂ ⟨hadds₂, hhandles⟩
    refine .pure ⟨hadds₁.trans hadds₂, List.forall_mem_cons.2 ⟨?_, hhandles⟩⟩
    exact hadds₂.continues.toExtends.holds hhandle

/-! ### Variables -/

/-- A new variable comes last, and is apart from those of the open components. -/
theorem Intact.newVariable_continues (h : program.Intact slots) (hint : String) :
    Yields (newVariable hint) program fun id program' =>
      program.Continues program' ∧ program'.Intact ({ id } :: slots) := by
  have hnames : Yields (newVariable hint) program fun _ program' =>
      program.names <+: program'.names := by
    obtain ⟨hint', start, hnames⟩ := names_newVariable program hint
    rw [Yields, hnames]
    exact List.prefix_append _ _
  have hsilent : Yields (newVariable hint) program fun _ program' =>
      program'.statements = program.statements ∧ program'.temporaries = program.temporaries :=
    ⟨rfl, rfl⟩
  refine Yields.mono ((newVariable_yields h.wellFormed hint).and (hnames.and hsilent)) ?_
  rintro id program' ⟨⟨hext, h', hid, hothers⟩, hnames, hstatements, htemporaries⟩
  refine ⟨⟨hext, by rw [hstatements], hnames, fun _ _ hhit => by rwa [htemporaries]⟩,
    h', ?_, ?_, ?_⟩
  · refine List.nodup_cons.2 ⟨fun hmem => ?_, h.nodup⟩
    obtain ⟨slot, hslot, heq⟩ := List.mem_map.1 hmem
    exact (hothers slot.id (h.isOpen slot hslot)).1 heq
  · exact List.forall_mem_cons.2
      ⟨hid, fun slot hslot => (hothers slot.id (h.isOpen slot hslot)).2⟩
  · exact List.forall_mem_cons.2
      ⟨nofun, fun slot hslot handle hhandle => hext.holds (h.held slot hslot handle hhandle)⟩

/-- A definition is given to a variable that has none. -/
theorem Intact.define_continues (h : program.Intact (slot :: slots)) (definition : Handle) :
    Yields (define slot.id definition) program fun _ program' =>
      program.Continues program' ∧ program'.Intact slots ∧
        program'.definition? slot.id = some definition := by
  obtain ⟨hid, hopen⟩ := List.forall_mem_cons.1 h.isOpen
  obtain ⟨hfresh, hnodup⟩ := List.nodup_cons.1 h.nodup
  have hnames : Yields (define slot.id definition) program fun _ program' =>
      program'.names = program.names := names_define program slot.id definition
  have hsilent : Yields (define slot.id definition) program fun _ program' =>
      program'.statements = program.statements ∧ program'.temporaries = program.temporaries :=
    ⟨rfl, rfl⟩
  refine Yields.mono
    ((define_yields h.wellFormed hid definition).and (hnames.and hsilent)) ?_
  rintro _ program' ⟨⟨hext, h', hdefinition, hothers⟩, hnames, hstatements, htemporaries⟩
  refine ⟨⟨hext, by rw [hstatements], by rw [hnames], fun _ _ hhit => by rwa [htemporaries]⟩,
    ⟨h', hnodup, fun other hother => ?_, fun other hother handle hhandle => ?_⟩, hdefinition⟩
  · have hne : other.id ≠ slot.id := by
      intro heq
      exact hfresh (heq ▸ List.mem_map_of_mem hother)
    exact hothers other.id hne (hopen other hother)
  · exact hext.holds (h.held other (List.mem_cons_of_mem slot hother) handle hhandle)

theorem Intact.emit_continues (h : program.Intact slots) (statement : Statement) :
    Yields (emit statement) program fun _ program' =>
      program.Continues program' ∧ program'.Intact slots := by
  have hstores : Yields (emit statement) program fun _ program' => program.Stores program' :=
    emit_yields h.wellFormed statement
  have hstatements : program.statements.toList <+:
      ((emit statement).run program).2.statements.toList := by
    change _ <+: (program.statements.push statement).toList
    rw [Array.toList_push]
    exact List.prefix_append _ _
  exact ⟨⟨hstores.toExtends, hstatements, List.prefix_refl _, fun _ _ hhit => hhit⟩,
    h.stores hstores⟩

/-- A complete variable may be read. -/
theorem read_adds (h : program.WellFormed) {id : Nat} {definition : Handle}
    (hdefinition : program.definition? id = some definition) (hheld : program.Holds definition) :
    Yields (onArena (Arena.read id)) program fun handle program' =>
      program.Adds program' ∧ program'.arena.node? handle = some (.read id) := by
  refine node_adds h ⟨⟨nofun, nofun⟩, fun other hother => ?_⟩
  cases hother
  exact ⟨definition, hdefinition, hheld⟩

theorem Continues.remember (h : program.WellFormed) {expression : Handle} {id : Nat}
    (hnode : program.arena.node? handle = some (.read id))
    (hdefinition : program.definition? id = some expression)
    (hnew : program.temporaries[expression]? = none) :
    program.Continues { program with
      temporaries := program.temporaries.insert expression handle } := by
  refine ⟨(Stores.remember h hnode hdefinition).toExtends, List.prefix_refl _,
    List.prefix_refl _, fun other found hhit => ?_⟩
  rw [Std.HashMap.getElem?_insert, if_neg]
  · exact hhit
  · intro heq
    rw [← eq_of_beq heq, hnew] at hhit
    cases hhit

/-- An expression that has a temporary keeps it, and another one gets a variable of its own. -/
theorem Intact.temporary_continues (h : program.Intact slots) {expression : Handle}
    (hheld : program.Holds expression) (hint : String) :
    Yields (temporary expression hint) program fun handle program' =>
      program.Continues program' ∧ program'.Intact slots ∧ program'.Holds handle := by
  unfold temporary
  refine Yields.bind (Yields.get ?_)
  split
  · rename_i existing hhit
    obtain ⟨id, hnode, -⟩ := h.wellFormed.temporaries expression existing hhit
    exact .pure ⟨.refl program, h, Arena.index_lt_of_node? hnode⟩
  · rename_i hnew
    -- No call but the last one touches the table of temporaries, so the entry is a new one.
    have hsame : ∀ {α : Type} {c : StateM (Program K) α} {program₁ : Program K},
        ((c.run program₁).2.temporaries = program₁.temporaries) →
        Yields c program₁ fun _ program' => program'.temporaries = program₁.temporaries :=
      fun h => h
    refine Yields.bind (Yields.mono ((h.newVariable_continues hint).and (hsame rfl)) ?_)
    rintro id program₁ ⟨⟨hcont₁, h₁⟩, hsame₁⟩
    refine Yields.bind (Yields.mono ((h₁.define_continues expression).and (hsame rfl)) ?_)
    rintro _ program₂ ⟨⟨hcont₂, h₂, hdefinition⟩, hsame₂⟩
    refine Yields.bind (Yields.mono
      ((h₂.emit_continues (.bind id expression)).and (hsame rfl)) ?_)
    rintro _ program₃ ⟨⟨hcont₃, h₃⟩, hsame₃⟩
    have hcont := (hcont₁.trans hcont₂).trans hcont₃
    refine Yields.bind (Yields.mono (read_adds h₃.wellFormed
      (hcont₃.definitions id expression hdefinition) (hcont.toExtends.holds hheld)) ?_)
    rintro handle program₄ ⟨hadds, hnode⟩
    have hnew₄ : program₄.temporaries[expression]? = none := by
      rw [hadds.temporaries, hsame₃, hsame₂, hsame₁]
      exact hnew
    have hdefinition₄ :=
      (hcont₃.trans hadds.continues).definitions id expression hdefinition
    have hremember := Continues.remember hadds.wellFormed hnode hdefinition₄ hnew₄
    have hstores := Stores.remember hadds.wellFormed hnode hdefinition₄
    refine Yields.bind (Yields.modify (.pure ⟨?_, ?_, ?_⟩))
    · exact (hcont.trans hadds.continues).trans hremember
    · exact (h₃.stores hadds.toStores).stores hstores
    · exact Arena.index_lt_of_node? hnode

/-! ### Calls -/

theorem emitTerm_continues (h : program.Intact (slot :: slots)) {term : Term K Handle}
    (hterm : ∀ f ∈ term, program.HoldsFactor f) (negate init : Bool) :
    Yields (emitTerm slot term negate init) program fun slot' program' =>
      program.Continues program' ∧ program'.Intact (slot' :: slots) := by
  unfold emitTerm
  have hfiltered : ∀ f ∈ term.filter fun f => !f.isOne, program.HoldsFactor f :=
    fun f hf => hterm f (List.mem_filter.1 hf).1
  refine Yields.bind (Yields.mono (factorHandles_adds h.wellFormed hfiltered) ?_)
  rintro handles program₁ ⟨hadds₁, hhandles⟩
  refine Yields.bind (Yields.mono (product_adds hadds₁.wellFormed hhandles) ?_)
  rintro product program₂ ⟨hadds₂, hproduct⟩
  -- Both branches continue in the same way, from a stored expression.
  have hrest : ∀ handle program₃, program₂.Adds program₃ ∧ program₃.Holds handle →
      Yields (do
        emit (if init then .assign slot.id handle else .augment slot.id handle)
        pure { slot with terms := slot.terms ++ [handle] }) program₃ fun slot' program' =>
          program.Continues program' ∧ program'.Intact (slot' :: slots) := by
    rintro handle program₃ ⟨hadds₃, hhandle⟩
    have hadds := (hadds₁.trans hadds₂).trans hadds₃
    refine Yields.bind (Yields.mono
      ((h.stores hadds.toStores).emit_continues
        (if init then .assign slot.id handle else .augment slot.id handle)) ?_)
    rintro _ program₄ ⟨hcont, h₄⟩
    exact .pure ⟨hadds.continues.trans hcont, h₄.append (hcont.toExtends.holds hhandle)⟩
  cases negate
  · exact hrest product program₂ ⟨.refl hadds₂.wellFormed, hproduct⟩
  · exact Yields.bind (Yields.mono (negate_adds hadds₂.wellFormed hproduct) hrest)

theorem openSlot_continues (h : program.Intact slots) (hint : String) :
    Yields (openSlot hint) program fun slot program' =>
      program.Continues program' ∧ program'.Intact (slot :: slots) := by
  refine Yields.bind (Yields.mono (h.newVariable_continues hint) ?_)
  exact fun id program' h => .pure h

/-- Closing a component defines its variable before it is read. -/
theorem closeSlot_continues (h : program.Intact (slot :: slots)) :
    Yields (closeSlot slot) program fun handle program' =>
      program.Continues program' ∧ program'.Intact slots ∧ program'.Holds handle := by
  unfold closeSlot
  have hterms := h.held slot List.mem_cons_self
  refine Yields.bind (Yields.mono (sum_adds h.wellFormed hterms) ?_)
  rintro definition program₁ ⟨hadds₁, hheld⟩
  refine Yields.bind (Yields.mono
    ((h.stores hadds₁.toStores).define_continues definition) ?_)
  rintro _ program₂ ⟨hcont₂, h₂, hdefinition⟩
  refine Yields.mono (read_adds h₂.wellFormed hdefinition (hcont₂.toExtends.holds hheld)) ?_
  rintro handle program₃ ⟨hadds₃, hnode⟩
  exact ⟨(hadds₁.continues.trans hcont₂).trans hadds₃.continues, h₂.stores hadds₃.toStores,
    Arena.index_lt_of_node? hnode⟩

theorem applyFunction_continues (h : program.Intact slots) (f : ScalarFunction)
    {args : Term K Handle} (hargs : ∀ g ∈ args, program.HoldsFactor g) :
    Yields (applyFunction f args) program fun handle program' =>
      program.Continues program' ∧ program'.Intact slots ∧ program'.Holds handle := by
  unfold applyFunction
  refine Yields.bind (Yields.mono (factorHandles_adds h.wellFormed hargs) ?_)
  rintro handles program₁ ⟨hadds₁, hhandles⟩
  refine Yields.bind (Yields.mono
    (operation_adds hadds₁.wellFormed (.call f handles) nofun nofun hhandles) ?_)
  rintro expression program₂ ⟨hadds₂, hheld⟩
  have hadds := hadds₁.trans hadds₂
  refine Yields.mono ((h.stores hadds.toStores).temporary_continues hheld f.name) ?_
  rintro handle program₃ ⟨hcont, h₃, hhandle⟩
  exact ⟨hadds.continues.trans hcont, h₃, hhandle⟩

theorem applyOperator_continues (h : program.Intact slots) (op : Operator)
    {l r : Factor K Handle} (hl : program.HoldsFactor l) (hr : program.HoldsFactor r) :
    Yields (applyOperator op l r) program fun handle program' =>
      program.Continues program' ∧ program'.Intact slots ∧ program'.Holds handle := by
  unfold applyOperator
  refine Yields.bind (Yields.mono (factorHandle_adds h.wellFormed hl) ?_)
  rintro left program₁ ⟨hadds₁, hleft⟩
  refine Yields.bind (Yields.mono (factorHandle_adds hadds₁.wellFormed
    (hadds₁.continues.toExtends.holdsFactor hr)) ?_)
  rintro right program₂ ⟨hadds₂, hright⟩
  have hchildren : ∀ child ∈ (Node.binary op left right : Node K).children,
      program₂.Holds child :=
    List.forall_mem_cons.2 ⟨hadds₂.continues.toExtends.holds hleft,
      List.forall_mem_singleton.2 hright⟩
  refine Yields.bind (Yields.mono
    (operation_adds hadds₂.wellFormed (.binary op left right) nofun nofun hchildren) ?_)
  rintro expression program₃ ⟨hadds₃, hheld⟩
  have hadds := (hadds₁.trans hadds₂).trans hadds₃
  refine Yields.mono ((h.stores hadds.toStores).temporary_continues hheld "t") ?_
  rintro handle program₄ ⟨hcont, h₄, hhandle⟩
  exact ⟨hadds.continues.trans hcont, h₄, hhandle⟩

/-! ### The reading -/

/-- The reading that tells which expressions are stored, of programs that continue `start`. -/
def heldReading (start : Program K) : Reading (Program K) K Handle Slot where
  eval? program handle := if handle.index < program.arena.size then some 0 else none
  stored _ _ := 0
  Open program slots := start.Continues program ∧ program.Intact slots

theorem known_heldReading (start : Program K) {f : Factor K Handle} :
    (heldReading start).Known program f ↔ program.HoldsFactor f := by
  refine forall_congr' fun handle => imp_congr_right fun _ => ?_
  simp [heldReading, Holds]

theorem Continues.extends_heldReading (h : program.Continues program') (start : Program K) :
    (heldReading start).Extends program program' := by
  intro handle x hx
  have heval : ∀ program : Program K, (heldReading start).eval? program handle =
      if handle.index < program.arena.size then some 0 else none := fun _ => rfl
  rw [heval] at hx ⊢
  split at hx
  · rename_i hheld
    have hheld' : handle.index < program'.arena.size := h.toExtends.holds hheld
    rwa [if_pos hheld']
  · cases hx

/-- **Every call to a program continues it.** -/
theorem steady_heldReading (start : Program K) : (heldReading start).Steady where
  perm h hperm := ⟨h.1, h.2.perm hperm⟩
  abandon {_ vs ws} h := by
    have hnodup := h.2.nodup
    rw [List.map_append] at hnodup
    exact ⟨h.1, h.2.wellFormed, (List.nodup_append.1 hnodup).2.1,
      fun slot hslot => h.2.isOpen slot (List.mem_append_right vs hslot),
      fun slot hslot => h.2.held slot (List.mem_append_right vs hslot)⟩
  opens _ name _ negate h hterm _ := by
    refine Yields.bind (Yields.mono (openSlot_continues h.2 name) ?_)
    rintro slot program₁ ⟨hcont₁, h₁⟩
    refine Yields.mono (emitTerm_continues h₁ (fun f hf =>
      hcont₁.toExtends.holdsFactor ((known_heldReading start).1 (hterm f hf))) negate true) ?_
    rintro slot' program₂ ⟨hcont₂, h₂⟩
    have hcont := hcont₁.trans hcont₂
    exact ⟨hcont.extends_heldReading start, h.1.trans hcont, h₂⟩
  augments negate h hterm := by
    refine Yields.mono (emitTerm_continues h.2
      (fun f hf => (known_heldReading start).1 (hterm f hf)) negate false) ?_
    rintro slot' program' ⟨hcont, h'⟩
    exact ⟨hcont.extends_heldReading start, h.1.trans hcont, h'⟩
  closes h := by
    refine Yields.mono (closeSlot_continues h.2) ?_
    rintro handle program' ⟨hcont, h', hhandle⟩
    exact ⟨hcont.extends_heldReading start, ⟨h.1.trans hcont, h'⟩,
      (known_heldReading start).2 (by rintro _ ⟨⟩; exact hhandle)⟩
  calls _ f _ h hargs _ := by
    refine Yields.mono (applyFunction_continues h.2 f
      fun g hg => (known_heldReading start).1 (hargs g hg)) ?_
    rintro handle program' ⟨hcont, h', hhandle⟩
    exact ⟨hcont.extends_heldReading start, ⟨h.1.trans hcont, h'⟩,
      (known_heldReading start).2 (by rintro _ ⟨⟩; exact hhandle)⟩
  combines _ op l r h hargs _ := by
    have hl := (known_heldReading start).1 (hargs l List.mem_cons_self)
    have hr := (known_heldReading start).1 (hargs r (List.mem_cons_of_mem l List.mem_cons_self))
    refine Yields.mono (applyOperator_continues h.2 op hl hr) ?_
    rintro handle program' ⟨hcont, h', hhandle⟩
    exact ⟨hcont.extends_heldReading start, ⟨h.1.trans hcont, h'⟩,
      (known_heldReading start).2 (by rintro _ ⟨⟩; exact hhandle)⟩
  spaces h := by
    refine Yields.mono (h.2.emit_continues .space) ?_
    rintro _ program' ⟨hcont, h'⟩
    exact ⟨hcont.extends_heldReading start, h.1.trans hcont, h'⟩
  comments text h := by
    refine Yields.mono (h.2.emit_continues (.comment text)) ?_
    rintro _ program' ⟨hcont, h'⟩
    exact ⟨hcont.extends_heldReading start, h.1.trans hcont, h'⟩

end Program

end Clifford

import Clifford.Proofs.Program.Value
import Clifford.Proofs.Target.Reading

/-!
# Programs as targets

When some inputs have values, a program has a reading: a symbol stands for the value of its
expression, if that has one, and a storage for the sum of its terms. This reading is sound.

## Main definitions

- `Program.Orderly` — a program and the components that are open in it
- `Program.reading` — what a program stands for when some inputs have values

## Main results

- `Program.sound_reading` — every call to a program respects the reading
- `Program.input_yields` — an input stands for the value that it has
-/

namespace Clifford

namespace Program

variable {K : Type} [Number K]

/-- The expression has a value when inputs have the given values. -/
def Valued (β : String → Option K) (program : Program K) (handle : Handle) : Prop :=
  ∃ x, program.eval? β handle = some x

/-- A well-formed program, and open variables of it whose terms have values. -/
structure Orderly (β : String → Option K) (program : Program K) (slots : List Slot) : Prop where
  wellFormed : program.WellFormed
  /-- No two components have the same variable. -/
  nodup : (slots.map Slot.id).Nodup
  isOpen : ∀ slot ∈ slots, program.IsOpen slot.id
  valued : ∀ slot ∈ slots, ∀ handle ∈ slot.terms, program.Valued β handle

/-- What symbols and components stand for when inputs have the given values. -/
def reading (β : String → Option K) : Reading (Program K) K Handle Slot where
  eval? := eval? β
  stored program slot := (slot.terms.map (program.val β)).sum
  Open := Orderly β

variable {β : String → Option K} {program program' : Program K} {slots : List Slot}
  {handle : Handle}

theorem Valued.eval?_eq (h : program.Valued β handle) :
    program.eval? β handle = some (program.val β handle) := by
  obtain ⟨x, hx⟩ := h
  rw [hx, val_of_eval? hx]

theorem Extends.valued (hext : program.Extends program') (h : program.WellFormed)
    (h' : program'.WellFormed) (hvalued : program.Valued β handle) : program'.Valued β handle :=
  ⟨_, hext.eval?_eq h h' hvalued.eval?_eq⟩

theorem Extends.val_eq (hext : program.Extends program') (h : program.WellFormed)
    (h' : program'.WellFormed) (hvalued : program.Valued β handle) :
    program'.val β handle = program.val β handle :=
  val_of_eval? (hext.eval?_eq h h' hvalued.eval?_eq)

theorem orderly_empty : ({} : Program K).Orderly β [] :=
  ⟨wellFormed_empty, List.nodup_nil, by simp, by simp⟩

theorem Orderly.stores (h : program.Orderly β slots) (hstores : program.Stores program') :
    program'.Orderly β slots where
  wellFormed := hstores.wellFormed
  nodup := h.nodup
  isOpen slot hslot := hstores.isOpen (h.isOpen slot hslot)
  valued slot hslot handle hhandle :=
    hstores.toExtends.valued h.wellFormed hstores.wellFormed (h.valued slot hslot handle hhandle)

/-- What is recorded later does not change the values that were there. -/
theorem Orderly.keeps (h : program.Orderly β slots) (hext : program.Extends program')
    (h' : program'.WellFormed) : (reading β).Keeps program program' slots where
  symbols _ _ hx := hext.eval?_eq h.wellFormed h' hx
  storages slot hslot := by
    have hsame : slot.terms.map (program'.val β) = slot.terms.map (program.val β) :=
      List.map_congr_left fun handle hhandle =>
        hext.val_eq h.wellFormed h' (h.valued slot hslot handle hhandle)
    exact congrArg List.sum hsame

theorem Orderly.append {slot : Slot} (h : program.Orderly β (slot :: slots))
    (hvalued : program.Valued β handle) :
    program.Orderly β ({ slot with terms := slot.terms ++ [handle] } :: slots) := by
  refine ⟨h.wellFormed, h.nodup, ?_, ?_⟩
  · rintro other (_ | ⟨_, hother⟩)
    · exact h.isOpen slot List.mem_cons_self
    · exact h.isOpen other (List.mem_cons_of_mem slot hother)
  · rintro other (_ | ⟨_, hother⟩) stored hstored
    · rcases List.mem_append.1 hstored with hold | hnew
      · exact h.valued slot List.mem_cons_self stored hold
      · rw [List.mem_singleton.1 hnew]
        exact hvalued
    · exact h.valued other (List.mem_cons_of_mem slot hother) stored hstored

/-! ### Expressions -/

/-- An expression with the given value was stored, if need be. -/
structure Computes (β : String → Option K) (program : Program K) (x : K) (handle : Handle)
    (program' : Program K) : Prop where
  stores : program.Stores program'
  eval?_eq : program'.eval? β handle = some x

theorem node_yields (h : program.WellFormed) (node : Node K) (hinput : ∀ id, node ≠ .input id)
    (hread : ∀ id, node ≠ .read id) (hvalued : ∀ child ∈ node.children, program.Valued β child) :
    Yields (onArena (Arena.store node)) program
      (program.Computes β (node.value (fun _ => 0) (fun _ => 0) (program.val β))) := by
  have hadmits : program.Admits node := by
    refine ⟨⟨fun child hchild => ?_, fun id hid => absurd hid (hinput id)⟩,
      fun id hid => absurd hid (hread id)⟩
    exact h.holds_of_eval? (hvalued child hchild).eval?_eq
  refine Yields.mono (store_yields h hadmits) ?_
  rintro handle program' ⟨hstores, hstored⟩
  refine ⟨hstores, hstores.wellFormed.eval?_eq hstored _ _ _ (fun id hid => absurd hid (hinput id))
    (fun id hid => absurd hid (hread id)) fun child hchild => ?_⟩
  exact hstores.toExtends.eval?_eq h hstores.wellFormed (hvalued child hchild).eval?_eq

theorem onArena_yields {α : Type} {c c' : StateM (Arena K) α} {Q : α → Program K → Prop}
    (hrun : c.run program.arena = c'.run program.arena) (h : Yields (onArena c') program Q) :
    Yields (onArena c) program Q := by
  have hsame : (onArena c).run program = (onArena c').run program := by
    simp only [onArena, StateT.run_modifyGet, hrun]
  unfold Yields at h ⊢
  rw [hsame]
  exact h

theorem call_yields (h : program.WellFormed) (f : ScalarFunction) {handles : List Handle}
    (hvalued : ∀ handle ∈ handles, program.Valued β handle) :
    Yields (onArena (Arena.call f handles)) program
      (program.Computes β (f.eval (handles.map (program.val β)))) := by
  have hnode := node_yields h (.call f handles) nofun nofun hvalued
  rw [Node.value_call] at hnode
  exact hnode

theorem binary_yields (h : program.WellFormed) (op : Operator) {left right : Handle}
    (hleft : program.Valued β left) (hright : program.Valued β right) :
    Yields (onArena (Arena.binary op left right)) program
      (program.Computes β (op.eval (program.val β left) (program.val β right))) := by
  refine node_yields h (.binary op left right) nofun nofun ?_
  rintro child (_ | ⟨_, hchild⟩)
  · exact hleft
  · rw [List.mem_singleton.1 hchild]
    exact hright

/-- **An input stands for the value that it has.** -/
theorem input_yields (h : program.WellFormed) {name : String} {x : K} (hx : β name = some x) :
    Yields (input name) program fun f program' =>
      program.Stores program' ∧ (reading β).Known program' f ∧
        (reading β).value program' f = x := by
  unfold input Arena.input
  rw [onArena_bind]
  refine Yields.bind (Yields.bind (Yields.mono (internInput_yields h name) ?_))
  rintro id program' ⟨hstores, hname⟩
  have hadmits : program'.Admits (.input id) := by
    refine ⟨⟨nofun, fun other hother => ?_⟩, nofun⟩
    cases hother
    exact ⟨name, hname⟩
  refine Yields.mono (store_yields hstores.wellFormed hadmits) ?_
  rintro handle program'' ⟨hstores', hnode⟩
  have heval : program''.eval? β handle = some x := by
    refine hstores'.wellFormed.eval?_eq hnode (fun _ => x) (fun _ => 0) (fun _ => 0)
      (fun other hother => ?_) nofun nofun
    cases hother
    rw [hstores'.arena.inputs id name hname, Option.bind_some, hx]
  exact .pure ⟨hstores.trans hstores', Reading.known_symbol.2 ⟨x, heval⟩,
    Reading.value_symbol heval⟩

/-! ### Components and temporaries -/

/-- The variable of a new component is apart from those of the other ones. -/
theorem Orderly.newVariable_yields (h : program.Orderly β slots) (hint : String) :
    Yields (newVariable hint) program fun id program' =>
      program.Extends program' ∧ program'.Orderly β ({ id } :: slots) := by
  refine Yields.mono (Program.newVariable_yields h.wellFormed hint) ?_
  rintro id program' ⟨hext, h', hid, hothers⟩
  refine ⟨hext, h', ?_, ?_, ?_⟩
  · refine List.nodup_cons.2 ⟨fun hmem => ?_, h.nodup⟩
    obtain ⟨slot, hslot, heq⟩ := List.mem_map.1 hmem
    exact (hothers slot.id (h.isOpen slot hslot)).1 heq
  · rintro slot (_ | ⟨_, hslot⟩)
    · exact hid
    · exact (hothers slot.id (h.isOpen slot hslot)).2
  · rintro slot (_ | ⟨_, hslot⟩) handle hhandle
    · cases hhandle
    · exact hext.valued h.wellFormed h' (h.valued slot hslot handle hhandle)

theorem Orderly.define_yields {slot : Slot} (h : program.Orderly β (slot :: slots))
    (definition : Handle) :
    Yields (define slot.id definition) program fun _ program' =>
      program.Extends program' ∧ program'.Orderly β slots ∧
        program'.definition? slot.id = some definition := by
  have hid := h.isOpen slot List.mem_cons_self
  have hnodup := List.nodup_cons.1 h.nodup
  refine Yields.mono (Program.define_yields h.wellFormed hid definition) ?_
  rintro _ program' ⟨hext, h', hdefinition, hothers⟩
  refine ⟨hext, ⟨h', hnodup.2, fun other hother => ?_, fun other hother handle hhandle => ?_⟩,
    hdefinition⟩
  · have hne : other.id ≠ slot.id := by
      intro heq
      exact hnodup.1 (heq ▸ List.mem_map_of_mem hother)
    exact hothers other.id hne (h.isOpen other (List.mem_cons_of_mem slot hother))
  · exact hext.valued h.wellFormed h'
      (h.valued other (List.mem_cons_of_mem slot hother) handle hhandle)

/-- Reading a complete variable gives the value of its definition. -/
theorem read_yields (h : program.WellFormed) {id : Nat} {definition : Handle} {x : K}
    (hdefinition : program.definition? id = some definition)
    (hx : program.eval? β definition = some x) :
    Yields (onArena (Arena.read id)) program fun handle program' =>
      program.Computes β x handle program' ∧ program'.arena.node? handle = some (.read id) := by
  have hadmits : program.Admits (.read id) := by
    refine ⟨⟨nofun, nofun⟩, fun other hother => ?_⟩
    cases hother
    exact ⟨definition, hdefinition, h.holds_of_eval? hx⟩
  refine Yields.mono (store_yields h hadmits) ?_
  rintro handle program' ⟨hstores, hnode⟩
  refine ⟨⟨hstores, ?_⟩, hnode⟩
  have hext := hstores.toExtends
  rw [hstores.wellFormed.eval?_read hnode (hext.definitions id definition hdefinition)]
  exact hext.eval?_eq h hstores.wellFormed hx

theorem Stores.remember (h : program.WellFormed) {expression handle : Handle} {id : Nat}
    (hnode : program.arena.node? handle = some (.read id))
    (hdefinition : program.definition? id = some expression) :
    program.Stores { program with
      temporaries := program.temporaries.insert expression handle } := by
  refine ⟨.refl _, rfl, h.arena, h.reads, fun other found hhit => ?_⟩
  rw [Std.HashMap.getElem?_insert] at hhit
  split at hhit
  · rename_i heq
    obtain rfl : expression = other := eq_of_beq heq
    obtain rfl : handle = found := Option.some.inj hhit
    exact ⟨id, hnode, hdefinition⟩
  · exact h.temporaries other found hhit

theorem temporary_yields (h : program.Orderly β slots) {expression : Handle} {x : K}
    (hx : program.eval? β expression = some x) (hint : String) :
    Yields (temporary expression hint) program fun handle program' =>
      program.Extends program' ∧ program'.Orderly β slots ∧
        program'.eval? β handle = some x := by
  unfold temporary
  refine Yields.bind (Yields.get ?_)
  split
  · -- The expression has a temporary, which is defined by it.
    rename_i existing hhit
    obtain ⟨id, hnode, hdefinition⟩ := h.wellFormed.temporaries expression existing hhit
    exact .pure ⟨.refl program, h, (h.wellFormed.eval?_read hnode hdefinition).trans hx⟩
  · refine Yields.bind (Yields.mono (h.newVariable_yields hint) ?_)
    rintro id program₁ ⟨hext₁, h₁⟩
    refine Yields.bind (Yields.mono (h₁.define_yields expression) ?_)
    rintro _ program₂ ⟨hext₂, h₂, hdefinition⟩
    refine Yields.bind (Yields.mono (emit_yields h₂.wellFormed (.bind id expression)) ?_)
    rintro _ program₃ hemit
    have hext₃ : program.Extends program₃ := (hext₁.trans hext₂).trans hemit.toExtends
    have hread := read_yields (β := β) hemit.wellFormed
      (hemit.toExtends.definitions id expression hdefinition)
      (hext₃.eval?_eq h.wellFormed hemit.wellFormed hx)
    refine Yields.bind (Yields.mono hread ?_)
    rintro handle program₄ ⟨hcomputes, hnode⟩
    have hstores := hemit.trans hcomputes.stores
    have hremember := Stores.remember hstores.wellFormed hnode
      (hstores.toExtends.definitions id expression hdefinition)
    refine Yields.bind (Yields.modify (.pure ?_))
    have hext := hext₃.trans (hcomputes.stores.toExtends.trans hremember.toExtends)
    exact ⟨hext, h₂.stores (hstores.trans hremember),
      hremember.toExtends.eval?_eq hstores.wellFormed hremember.wellFormed hcomputes.eval?_eq⟩

/-! ### Sums and products -/

theorem openSlot_yields (h : program.Orderly β slots) (hint : String) :
    Yields (openSlot hint) program fun slot program' =>
      (reading β).Keeps program program' slots ∧ program'.Orderly β (slot :: slots) ∧
        (reading β).stored program' slot = 0 := by
  refine Yields.bind (Yields.mono (h.newVariable_yields hint) ?_)
  rintro id program' ⟨hext, h'⟩
  exact .pure ⟨h.keeps hext h'.wellFormed, h', rfl⟩

variable [ExactNumber K]

theorem number_yields (h : program.WellFormed) (x : K) :
    Yields (onArena (Arena.number x)) program (program.Computes β x) := by
  have hvalue : (Node.ofNumber x).value (fun _ => 0) (fun _ => 0) (program.val β) = x := by
    rw [Node.ofNumber, Node.value_number]
    split
    · rename_i hzero
      exact (Number.isZero_iff.1 hzero).symm
    · rfl
  have hnode := node_yields (β := β) h (.ofNumber x) nofun nofun nofun
  rw [hvalue] at hnode
  exact hnode

theorem factorHandle_yields (h : program.WellFormed) {f : Factor K Handle}
    (hf : (reading β).Known program f) :
    Yields (factorHandle f) program (program.Computes β ((reading β).value program f)) := by
  cases f with
  | number x => exact number_yields h x
  | symbol handle =>
    have hvalued : program.Valued β handle := Reading.known_symbol.1 hf
    exact .pure ⟨.refl h, hvalued.eval?_eq⟩

theorem factorHandles_yields (h : program.WellFormed) {term : Term K Handle}
    (hterm : (reading β).KnownTerm program term) :
    Yields (term.mapM factorHandle) program fun handles program' =>
      program.Stores program' ∧ (∀ handle ∈ handles, program'.Valued β handle) ∧
        handles.map (program'.val β) = term.map ((reading β).value program) := by
  induction term generalizing program with
  | nil => exact .pure ⟨.refl h, by simp, rfl⟩
  | cons f rest ih =>
    rw [List.mapM_cons]
    refine Yields.bind (Yields.mono (factorHandle_yields h (hterm f List.mem_cons_self)) ?_)
    rintro handle program' ⟨hstores, hx⟩
    have hkeeps : (reading β).Keeps program program' [] :=
      Orderly.keeps ⟨h, List.nodup_nil, by simp, by simp⟩ hstores.toExtends hstores.wellFormed
    have hrest : (reading β).KnownTerm program rest :=
      fun g hg => hterm g (List.mem_cons_of_mem f hg)
    refine Yields.bind (Yields.mono (ih hstores.wellFormed (hkeeps.symbols.knownTerm hrest)) ?_)
    rintro handles program'' ⟨hstores', hvalued', hvals⟩
    have hx' := hstores'.toExtends.eval?_eq hstores.wellFormed hstores'.wellFormed hx
    refine .pure ⟨hstores.trans hstores', ?_, ?_⟩
    · rintro other (_ | ⟨_, hother⟩)
      · exact ⟨_, hx'⟩
      · exact hvalued' other hother
    · have htail : rest.map ((reading β).value program') = rest.map ((reading β).value program) :=
        List.map_congr_left fun g hg => hkeeps.symbols.value_eq (hrest g hg)
      rw [List.map_cons, List.map_cons, val_of_eval? hx', hvals, htail]

theorem sorted_perm (handles : List Handle) : (Arena.sorted handles).Perm handles :=
  List.mergeSort_perm handles _

theorem product_yields (h : program.WellFormed) {handles : List Handle}
    (hvalued : ∀ handle ∈ handles, program.Valued β handle) :
    Yields (onArena (Arena.product handles)) program
      (program.Computes β (handles.map (program.val β)).prod) := by
  match handles with
  | [] => exact number_yields h 1
  | [handle] =>
    refine .pure ⟨.refl h, ?_⟩
    rw [List.map_singleton, List.prod_singleton]
    exact (hvalued handle List.mem_cons_self).eval?_eq
  | first :: second :: rest =>
    have hnode := node_yields h (.product (Arena.sorted (first :: second :: rest))) nofun
      nofun fun child hchild => hvalued child ((sorted_perm _).mem_iff.1 hchild)
    rw [Node.value_product, Number.productFrom_eq, one_mul,
      ((sorted_perm _).map _).prod_eq] at hnode
    exact hnode

theorem sum_yields (h : program.WellFormed) {handles : List Handle}
    (hvalued : ∀ handle ∈ handles, program.Valued β handle) :
    Yields (onArena (Arena.sum handles)) program
      (program.Computes β (handles.map (program.val β)).sum) := by
  match handles with
  | [] => exact number_yields h 0
  | [handle] =>
    refine .pure ⟨.refl h, ?_⟩
    rw [List.map_singleton, List.sum_singleton]
    exact (hvalued handle List.mem_cons_self).eval?_eq
  | first :: second :: rest =>
    have hnode := node_yields h (.sum (Arena.sorted (first :: second :: rest))) nofun
      nofun fun child hchild => hvalued child ((sorted_perm _).mem_iff.1 hchild)
    rw [Node.value_sum, Number.foldl_add_eq, zero_add,
      ((sorted_perm _).map _).sum_eq] at hnode
    exact hnode

/-- Negating an expression negates its value, also where two negations cancel. -/
theorem negate_yields (h : program.WellFormed) {x : K} (hx : program.eval? β handle = some x) :
    Yields (onArena (Arena.negate handle)) program (program.Computes β (-x)) := by
  obtain ⟨operand, hnode, hrun⟩ | hrun := Arena.negate_cases program.arena handle
  · refine onArena_yields hrun (.pure ⟨.refl h, ?_⟩)
    -- The expression is a negation, so its operand has the negated value.
    obtain ⟨y, hy, rfl⟩ := h.eval?_negation hnode hx
    rw [neg_neg]
    exact hy
  · have hnode := node_yields (β := β) h (.negation handle) nofun nofun
      fun child hchild => ⟨x, by rw [List.mem_singleton.1 hchild]; exact hx⟩
    rw [Node.value_negation, val_of_eval? hx] at hnode
    exact onArena_yields hrun hnode

/-! ### Calls -/

theorem termValue_filter_isOne (term : Term K Handle) :
    (reading β).termValue program (term.filter fun f => !f.isOne) =
      (reading β).termValue program term := by
  induction term with
  | nil => rfl
  | cons f rest ih =>
    rw [List.filter_cons, Reading.termValue_cons]
    cases hone : f.isOne with
    | true =>
      rw [Reading.value_of_isOne hone, one_mul]
      exact ih
    | false =>
      rw [← ih]
      exact Reading.termValue_cons f _

theorem stored_append (slot : Slot) (handle : Handle) :
    (reading β).stored program { slot with terms := slot.terms ++ [handle] } =
      (reading β).stored program slot + program.val β handle := by
  change ((slot.terms ++ [handle]).map (program.val β)).sum = _
  rw [List.map_append, List.sum_append, List.map_singleton, List.sum_singleton]
  rfl

theorem emitTerm_yields {slot : Slot} (h : program.Orderly β (slot :: slots))
    {term : Term K Handle} (hterm : (reading β).KnownTerm program term) (negate init : Bool) :
    Yields (emitTerm slot term negate init) program fun slot' program' =>
      (reading β).Keeps program program' (slot :: slots) ∧ program'.Orderly β (slot' :: slots) ∧
        (reading β).stored program' slot' = (reading β).stored program slot +
          signed negate ((reading β).termValue program term) := by
  unfold emitTerm
  have hfiltered : (reading β).KnownTerm program (term.filter fun f => !f.isOne) :=
    fun f hf => hterm f (List.mem_filter.1 hf).1
  refine Yields.bind (Yields.mono (factorHandles_yields h.wellFormed hfiltered) ?_)
  rintro handles program₁ ⟨hstores₁, hvalued, hvals⟩
  refine Yields.bind (Yields.mono (product_yields hstores₁.wellFormed hvalued) ?_)
  rintro product program₂ ⟨hstores₂, hproduct⟩
  rw [hvals, ← Reading.termValue, termValue_filter_isOne] at hproduct
  -- Both branches continue in the same way, from an expression of the signed value.
  have hrest : ∀ handle program₃,
      program₂.Computes β (signed negate ((reading β).termValue program term)) handle program₃ →
      Yields (do
        emit (if init then .assign slot.id handle else .augment slot.id handle)
        pure { slot with terms := slot.terms ++ [handle] }) program₃ fun slot' program' =>
          (reading β).Keeps program program' (slot :: slots) ∧
            program'.Orderly β (slot' :: slots) ∧
            (reading β).stored program' slot' = (reading β).stored program slot +
              signed negate ((reading β).termValue program term) := by
    rintro handle program₃ ⟨hstores₃, hhandle⟩
    refine Yields.bind (Yields.mono (emit_yields hstores₃.wellFormed _) ?_)
    rintro _ program₄ hemit
    have hstores := ((hstores₁.trans hstores₂).trans hstores₃).trans hemit
    have hkeeps := h.keeps hstores.toExtends hstores.wellFormed
    have hlast := hemit.toExtends.eval?_eq hstores₃.wellFormed hemit.wellFormed hhandle
    refine .pure ⟨hkeeps, (h.stores hstores).append ⟨_, hlast⟩, ?_⟩
    rw [stored_append, val_of_eval? hlast, hkeeps.storages slot List.mem_cons_self]
  cases negate
  · exact hrest product program₂ ⟨.refl hstores₂.wellFormed, hproduct⟩
  · refine Yields.bind (Yields.mono (negate_yields hstores₂.wellFormed hproduct) ?_)
    exact hrest

theorem closeSlot_yields {slot : Slot} (h : program.Orderly β (slot :: slots)) :
    Yields (closeSlot slot) program fun handle program' =>
      (reading β).Keeps program program' slots ∧ program'.Orderly β slots ∧
        program'.eval? β handle = some ((reading β).stored program slot) := by
  unfold closeSlot
  -- The sum of the terms defines the variable, which is then read.
  have hterms := h.valued slot List.mem_cons_self
  refine Yields.bind (Yields.mono (sum_yields h.wellFormed hterms) ?_)
  rintro definition program₁ ⟨hstores₁, hx⟩
  refine Yields.bind (Yields.mono ((h.stores hstores₁).define_yields definition) ?_)
  rintro _ program₂ ⟨hext₂, h₂, hdefinition⟩
  have hx' := hext₂.eval?_eq hstores₁.wellFormed h₂.wellFormed hx
  refine Yields.mono (read_yields h₂.wellFormed hdefinition hx') ?_
  rintro handle program₃ ⟨⟨hstores₃, hhandle⟩, -⟩
  have hext := (hstores₁.toExtends.trans hext₂).trans hstores₃.toExtends
  have hkeeps := h.keeps hext hstores₃.wellFormed
  exact ⟨hkeeps.mono fun _ => List.mem_cons_of_mem _, h₂.stores hstores₃, hhandle⟩

theorem applyFunction_yields (h : program.Orderly β slots) (f : ScalarFunction)
    {args : Term K Handle} (hargs : (reading β).KnownTerm program args) :
    Yields (applyFunction f args) program fun handle program' =>
      (reading β).Keeps program program' slots ∧ program'.Orderly β slots ∧
        program'.eval? β handle = some (f.eval (args.map ((reading β).value program))) := by
  unfold applyFunction
  refine Yields.bind (Yields.mono (factorHandles_yields h.wellFormed hargs) ?_)
  rintro handles program₁ ⟨hstores₁, hvalued, hvals⟩
  refine Yields.bind (Yields.mono (call_yields hstores₁.wellFormed f hvalued) ?_)
  rintro expression program₂ ⟨hstores₂, hx⟩
  rw [hvals] at hx
  have hstores := hstores₁.trans hstores₂
  refine Yields.mono (temporary_yields (h.stores hstores) hx f.name) ?_
  rintro handle program₃ ⟨hext, h₃, hhandle⟩
  exact ⟨h.keeps (hstores.toExtends.trans hext) h₃.wellFormed, h₃, hhandle⟩

theorem applyOperator_yields (h : program.Orderly β slots) (op : Operator)
    {l r : Factor K Handle} (hl : (reading β).Known program l)
    (hr : (reading β).Known program r) :
    Yields (applyOperator op l r) program fun handle program' =>
      (reading β).Keeps program program' slots ∧ program'.Orderly β slots ∧
        program'.eval? β handle =
          some (op.eval ((reading β).value program l) ((reading β).value program r)) := by
  unfold applyOperator
  refine Yields.bind (Yields.mono (factorHandle_yields h.wellFormed hl) ?_)
  rintro left program₁ ⟨hstores₁, hleft⟩
  have hkeeps := h.keeps hstores₁.toExtends hstores₁.wellFormed
  have hright := factorHandle_yields hstores₁.wellFormed (hkeeps.symbols.known hr)
  refine Yields.bind (Yields.mono hright ?_)
  rintro right program₂ ⟨hstores₂, hright⟩
  have hleft₂ := hstores₂.toExtends.eval?_eq hstores₁.wellFormed hstores₂.wellFormed hleft
  refine Yields.bind (Yields.mono
    (binary_yields hstores₂.wellFormed op ⟨_, hleft₂⟩ ⟨_, hright⟩) ?_)
  rintro expression program₃ ⟨hstores₃, hx⟩
  rw [val_of_eval? hleft₂, val_of_eval? hright, hkeeps.symbols.value_eq hr] at hx
  have hstores := (hstores₁.trans hstores₂).trans hstores₃
  refine Yields.mono (temporary_yields (h.stores hstores) hx "t") ?_
  rintro handle program₄ ⟨hext, h₄, hhandle⟩
  exact ⟨h.keeps (hstores.toExtends.trans hext) h₄.wellFormed, h₄, hhandle⟩

/-- **Every call to a program respects its reading.** -/
theorem sound_reading : (reading β : Reading (Program K) K Handle Slot).Sound where
  perm h hperm := ⟨h.wellFormed, (hperm.map Slot.id).nodup_iff.1 h.nodup,
    fun slot hslot => h.isOpen slot (hperm.mem_iff.2 hslot),
    fun slot hslot => h.valued slot (hperm.mem_iff.2 hslot)⟩
  abandon {_ vs ws} h := by
    have hnodup := h.nodup
    rw [List.map_append] at hnodup
    exact ⟨h.wellFormed, (List.nodup_append.1 hnodup).2.1,
      fun slot hslot => h.isOpen slot (List.mem_append_right vs hslot),
      fun slot hslot => h.valued slot (List.mem_append_right vs hslot)⟩
  opens {program others} _ name term negate h hterm := by
    refine Yields.bind (Yields.mono (openSlot_yields (β := β) h name) ?_)
    rintro slot program₁ ⟨hkeeps, h₁, hempty⟩
    refine Yields.mono (emitTerm_yields h₁ (hkeeps.symbols.knownTerm hterm) negate true) ?_
    rintro slot' program₂ ⟨hkeeps', h₂, hstored⟩
    refine ⟨hkeeps.trans (hkeeps'.mono fun _ => List.mem_cons_of_mem _), h₂, ?_⟩
    rw [hstored, hempty, zero_add, hkeeps.symbols.termValue_eq hterm]
  augments negate h hterm := by
    refine Yields.mono (emitTerm_yields h hterm negate false) ?_
    rintro slot program' ⟨hkeeps, h', hstored⟩
    exact ⟨hkeeps.mono fun _ => List.mem_cons_of_mem _, h', hstored⟩
  closes h := closeSlot_yields h
  calls _ f _ h hargs := applyFunction_yields h f hargs
  combines _ op _ _ h hl hr := applyOperator_yields h op hl hr
  spaces h := by
    refine Yields.mono (emit_yields h.wellFormed .space) ?_
    intro _ program' hemit
    exact ⟨h.keeps hemit.toExtends hemit.wellFormed, h.stores hemit⟩
  comments text h := by
    refine Yields.mono (emit_yields h.wellFormed (.comment text)) ?_
    intro _ program' hemit
    exact ⟨h.keeps hemit.toExtends hemit.wellFormed, h.stores hemit⟩

end Program

end Clifford

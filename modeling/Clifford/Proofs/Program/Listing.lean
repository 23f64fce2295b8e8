import Clifford.Program.Listing
import Clifford.Proofs.Expression.Text
import Clifford.Proofs.Program.Evaluator
import Clifford.Proofs.Program.Naming

/-!
# Listings of programs

A listing refers to variables and inputs by name, and a name that was declared no longer stands for
an input. So a listing does what its program does if no line reads an input after a variable took
the name of the input.

## Main definitions

- `Program.Legible` — all names, numbers and remarks can be read
- `Program.CaptureFree` — no input is read after a variable took its name
- `Program.inputScope` — what names stand for before the first line
- `Program.Mirrors` — what names stand for after some lines

## Main results

- `Program.Mirrors.step` — a line does what its command does
- `Program.read_listing` — reading the listing executes the program
-/

namespace Clifford

namespace Program

variable {K : Type} [Number K]

/-- Names can be read as names, remarks stay on one line, and the texts of the numbers that occur
are read as these numbers. -/
structure Legible [Numeral K] (literal : String → Option K) (program : Program K) : Prop where
  inputNames : ∀ name ∈ program.inputNames, Listing.IsName name
  names : ∀ name ∈ program.names, Listing.IsName name
  numbers : ∀ handle x, program.arena.node? handle = some (.number x) →
    Listing.ReadsBack literal x
  comments : ∀ text, .comment text ∈ program.statements → '\n' ∉ text.toList

/-- No command reads an input that has the name of a variable which an earlier command declares. -/
def CaptureFree (program : Program K) : Prop :=
  ∀ id input i j, Command.At program.code i (Command.Declares id) →
    Command.At program.code j (fun c => input ∈ c.inputs) →
    program.arena.inputName? input = some (program.variableName id) → j ≤ i

/-- Before the first line, the names of inputs stand for the values of the inputs. -/
def inputScope (program : Program K) (values : String → K) : Scope K := fun name =>
  if name ∈ program.inputNames then some (values name) else none

/-- The names of variables stand for their values in a memory, and the names of inputs for the
values of the inputs as long as no variable has them. -/
structure Mirrors (program : Program K) (values : String → K) (memory : Memory K)
    (scope : Scope K) : Prop where
  id_lt : ∀ id, memory id ≠ none → id < program.declared.size
  reads : ∀ id x, memory id = some x → scope (program.variableName id) = some x
  inputs : ∀ name ∈ program.inputNames,
    (∀ id, memory id ≠ none → program.variableName id ≠ name) → scope name = some (values name)

variable {program : Program K} {values : String → K} {memory memory' : Memory K} {scope : Scope K}
  {literal : String → Option K} {statement : Statement} {id : Nat} {x : K}

/-! ### Names -/

theorem names_getElem? (h : id < program.declared.size) :
    program.names[id]? = some (program.variableName id) := by
  rw [names, List.getElem?_map, Array.getElem?_toList, variableName, variableAt?,
    Array.getElem?_eq_getElem h]
  rfl

/-- Different variables have different names. -/
theorem Tidy.variableName_inj (h : program.Tidy) {i j : Nat} (hi : i < program.declared.size)
    (hj : j < program.declared.size) (hname : program.variableName i = program.variableName j) :
    i = j := by
  have hlength : i < program.names.length := by
    rw [names, List.length_map, Array.length_toList]
    exact hi
  refine (List.getElem?_inj hlength h.names_nodup).1 ?_
  rw [names_getElem? hi, names_getElem? hj, hname]

theorem Legible.isName_variable [Numeral K] (h : program.Legible literal)
    (hid : id < program.declared.size) : Listing.IsName (program.variableName id) :=
  h.names _ (List.mem_of_getElem? (names_getElem? hid))

/-! ### Lines -/

namespace Mirrors

theorem start (program : Program K) (values : String → K) :
    program.Mirrors values (fun _ => none) (program.inputScope values) where
  id_lt _ h := absurd rfl h
  reads _ _ h := nomatch h
  inputs _ hname _ := if_pos hname

/-- A variable gets a value, and its name comes to stand for that value. -/
theorem update (h : program.Mirrors values memory scope) (htidy : program.Tidy)
    (hid : id < program.declared.size) (x : K) :
    program.Mirrors values (Function.update memory id (some x))
      (Function.update scope (program.variableName id) (some x)) where
  id_lt other hother := by
    by_cases heq : other = id
    · exact heq ▸ hid
    · rw [Function.update_of_ne heq] at hother
      exact h.id_lt other hother
  reads other y hy := by
    by_cases heq : other = id
    · subst heq
      rw [Function.update_self] at hy ⊢
      exact hy
    · rw [Function.update_of_ne heq] at hy
      have hlt := h.id_lt other (hy ▸ Option.some_ne_none y)
      rw [Function.update_of_ne fun hname => heq (htidy.variableName_inj hlt hid hname)]
      exact h.reads other y hy
  inputs name hname hfree := by
    have hne : name ≠ program.variableName id := by
      rintro rfl
      refine hfree id ?_ rfl
      rw [Function.update_self]
      exact Option.some_ne_none x
    rw [Function.update_of_ne hne]
    refine h.inputs name hname fun other hother => hfree other ?_
    by_cases heq : other = id
    · rw [heq, Function.update_self]
      exact Option.some_ne_none x
    · rw [Function.update_of_ne heq]
      exact hother

variable [Numeral K] [ExactNumber K] (hwellFormed : program.WellFormed) (htidy : program.Tidy)
  (hlegible : program.Legible literal) (hdiv : ∀ x y z : K, x * (y / z) = x * y / z)

include hwellFormed htidy hlegible hdiv

/-- The formula of an expression has the value of the expression, unless a variable took the name of
one of its inputs. -/
theorem denotes (h : program.Mirrors values memory scope) {handle : Handle}
    (hfree : ∀ input ∈ (program.arena.tree handle).inputs, ∀ id, memory id ≠ none →
      program.arena.inputName? input ≠ some (program.variableName id))
    (hx : (program.arena.tree handle).value?
      (fun input => (program.arena.inputName? input).bind fun name => some (values name)) memory =
        some x) :
    Denotes (Listing.wordValue literal scope) 0 (program.formula handle) x := by
  refine Arena.denotes_tree hdiv hwellFormed.arena htidy.hasOperands hlegible.numbers
    (fun id x hid => ⟨?_, h.reads id x hid⟩) (fun input hinput x hx => ?_) hx 0
  · exact hlegible.isName_variable (h.id_lt id (hid ▸ Option.some_ne_none x))
  · obtain ⟨name, hname, hvalue⟩ := Option.bind_eq_some_iff.1 hx
    obtain rfl := Option.some.inj hvalue
    have hmem : name ∈ program.inputNames :=
      Array.mem_toList_iff.2 (Array.mem_of_getElem? hname)
    have htext : program.inputName input = name := by
      rw [inputName, hname, Option.getD_some]
    rw [htext]
    refine ⟨hlegible.inputNames name hmem, h.inputs name hmem fun id hid hcaptured => ?_⟩
    exact hfree input hinput id hid (hcaptured ▸ hname)

/-- A line that adds to a variable, or subtracts from it. -/
theorem augment (h : program.Mirrors values memory scope) {value : Handle} {total : K}
    (hfree : ∀ input ∈ (program.arena.tree value).inputs, ∀ id, memory id ≠ none →
      program.arena.inputName? input ≠ some (program.variableName id))
    (hx : (program.arena.tree value).value?
      (fun input => (program.arena.inputName? input).bind fun name => some (values name)) memory =
        some x) (htotal : memory id = some total) :
    Listing.Reads literal scope (program.line (.augment id value))
      (Function.update scope (program.variableName id) (some (total + x))) := by
  have hname := hlegible.isName_variable (h.id_lt id (htotal ▸ Option.some_ne_none total))
  have hscope := h.reads id total htotal
  rw [line]
  cases hnegated : (program.arena.node? value).bind Node.negated? with
  | none =>
    have hformula := denotes hwellFormed htidy hlegible hdiv h hfree hx
    have hplus : " += " = " " ++ Operator.add.token ++ "= " := by decide
    rw [hplus]
    exact Listing.reads_change .add rfl hname hscope hformula
  | some inner =>
    -- Adding a negation is subtracting its operand.
    have hnode := Arena.node?_of_negated? hnegated
    have htree := hwellFormed.arena.tree_eq hnode
    rw [htree] at hx hfree
    obtain ⟨y, hy, hvalue⟩ := Option.bind_eq_some_iff.1 hx
    obtain rfl := Option.some.inj hvalue
    have hformula := denotes hwellFormed htidy hlegible hdiv h hfree hy
    have hminus : " -= " = " " ++ Operator.sub.token ++ "= " := by decide
    rw [hminus, ← sub_eq_add_neg]
    exact Listing.reads_change .sub rfl hname hscope hformula

/-- **A line does what its command does.** -/
theorem step (h : program.Mirrors values memory scope)
    (hstatement : statement ∈ program.statements)
    (hdeclared : ∀ id, (program.command statement).Declares id → id < program.declared.size)
    (hfree : ∀ input ∈ (program.command statement).inputs, ∀ id, memory id ≠ none →
      program.arena.inputName? input ≠ some (program.variableName id))
    (hexecute : (program.command statement).execute
      (fun input => (program.arena.inputName? input).bind fun name => some (values name)) memory =
        some memory') :
    ∃ scope', Listing.Reads literal scope (program.line statement) scope' ∧
      program.Mirrors values memory' scope' := by
  cases statement with
  | assign id value | bind id value =>
    have hid := hdeclared id rfl
    obtain ⟨x, hx, hmemory⟩ := Option.bind_eq_some_iff.1 hexecute
    obtain rfl := Option.some.inj hmemory
    have hformula := denotes hwellFormed htidy hlegible hdiv h hfree hx
    have hread := Listing.reads_declare (program.isAugmented id) (hlegible.isName_variable hid)
      hformula
    exact ⟨_, hread, h.update htidy hid x⟩
  | augment id value =>
    obtain ⟨x, hx, hexecute⟩ := Option.bind_eq_some_iff.1 hexecute
    obtain ⟨total, htotal, hmemory⟩ := Option.bind_eq_some_iff.1 hexecute
    obtain rfl := Option.some.inj hmemory
    have hid := h.id_lt id (htotal ▸ Option.some_ne_none total)
    exact ⟨_, augment hwellFormed htidy hlegible hdiv h hfree hx htotal,
      h.update htidy hid (total + x)⟩
  | space =>
    obtain rfl := Option.some.inj hexecute
    exact ⟨scope, Listing.reads_empty, h⟩
  | comment text =>
    obtain rfl := Option.some.inj hexecute
    exact ⟨scope, Listing.reads_remark (hlegible.comments text hstatement), h⟩

/-- Several lines do what their commands do. -/
theorem run (hdisciplined : Disciplined program.declared.size program.code)
    (hfree : program.CaptureFree)
    {done rest : List Statement} (hstatements : program.statements.toList = done ++ rest)
    (hexecute : Command.executeAll
      (fun input => (program.arena.inputName? input).bind fun name => some (values name))
      (done.map program.command) = some memory) :
    ∃ scope, (done.map program.line).foldlM
        (fun scope line => Listing.readLine literal scope line.toList)
        (program.inputScope values) = some scope ∧
      (∀ line ∈ done.map program.line, '\n' ∉ line.toList) ∧
      program.Mirrors values memory scope := by
  induction done using List.reverseRecOn generalizing rest memory with
  | nil =>
    obtain rfl := Option.some.inj hexecute
    exact ⟨_, rfl, nofun, .start program values⟩
  | append_singleton done statement ih =>
    rw [List.map_append, List.map_singleton, Command.executeAll_concat] at hexecute
    obtain ⟨before, hbefore, hlast⟩ := Option.bind_eq_some_iff.1 hexecute
    have hsplit : program.statements.toList = done ++ statement :: rest := by
      rw [hstatements, List.append_assoc, List.singleton_append]
    obtain ⟨scope, hscope, hunbroken, hmirrors⟩ := ih hsplit hbefore
    have hcode : program.code =
        done.map program.command ++ program.command statement :: rest.map program.command := by
      rw [code, hsplit, List.map_append, List.map_cons]
    have hcurrent : ∀ P : Command K → Prop, P (program.command statement) →
        Command.At program.code (done.map program.command).length P := by
      intro P hP
      rw [hcode]
      exact ⟨_, List.getElem?_append_right le_rfl |>.trans (by simp), hP⟩
    have hstatement : statement ∈ program.statements := by
      rw [← Array.mem_toList_iff, hsplit]
      simp
    have hdeclared : ∀ id, (program.command statement).Declares id → id < program.declared.size :=
      fun id hid => hdisciplined.id_lt id _ (hcurrent _ (.inl hid))
    have huncaptured : ∀ input ∈ (program.command statement).inputs, ∀ id, before id ≠ none →
        program.arena.inputName? input ≠ some (program.variableName id) := by
      intro input hinput id hid hname
      -- A variable with a value was declared by an earlier command.
      obtain ⟨i, hi⟩ := Command.exists_declares hbefore hid
      have hlt := hi.lt_length
      have hearlier : Command.At program.code i (Command.Declares id) := by
        obtain ⟨c, hc, hdeclares⟩ := hi
        rw [hcode]
        exact ⟨c, (List.getElem?_append_left hlt).trans hc, hdeclares⟩
      have hle := hfree id input i _ hearlier (hcurrent _ hinput) hname
      exact absurd hlt (Nat.not_lt.2 hle)
    obtain ⟨scope', hread, hmirrors'⟩ :=
      step hwellFormed htidy hlegible hdiv hmirrors hstatement hdeclared huncaptured hlast
    refine ⟨scope', ?_, ?_, hmirrors'⟩
    · rw [List.map_append, List.map_singleton, List.foldlM_append, hscope]
      exact (bind_pure _).trans hread.readLine_eq
    · rw [List.map_append, List.map_singleton, List.forall_mem_append, List.forall_mem_singleton]
      exact ⟨hunbroken, hread.unbroken⟩

end Mirrors

/-- **Reading the listing executes the program**: at the end, the names of the variables stand for
their values. -/
theorem read_listing [Numeral K] [ExactNumber K] (hwellFormed : program.WellFormed)
    (htidy : program.Tidy) (hlegible : program.Legible literal)
    (hdiv : ∀ x y z : K, x * (y / z) = x * y / z)
    (hdisciplined : Disciplined program.declared.size program.code) (hfree : program.CaptureFree)
    (hexecute : program.execute (fun name => some (values name)) = some memory) :
    ∃ scope, Listing.read literal (program.inputScope values) program.listing = some scope ∧
      ∀ id x, memory id = some x → scope (program.variableName id) = some x := by
  obtain ⟨scope, hscope, hunbroken, hmirrors⟩ := Mirrors.run hwellFormed htidy hlegible hdiv
    hdisciplined hfree (List.append_nil _).symm hexecute
  refine ⟨scope, ?_, hmirrors.reads⟩
  have hread := Listing.read_join literal (program.inputScope values) hunbroken
  rw [List.map_map] at hread
  exact hread.trans hscope

end Program

end Clifford

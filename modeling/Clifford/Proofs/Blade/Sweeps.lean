import Clifford.Proofs.Blade.Vectors

/-!
# Sweeps over the bits of a word

A loop over the vectors of a blade runs on words. While a bit is left, the number of trailing zeros
tells which vector comes next, and the bit is taken away, by meeting the word with its predecessor
or by masking it out. A sweep is such a loop, described round by round. It always ends, and what it
ends with is a fold over the list of positions.

## Main definitions

- `Blade.meetPredecessor`, `Blade.maskLowest` — two ways to take away the lowest bit
- `Blade.Sweep` — what a loop over the bits of a word ends with, and after how many rounds
- `Blade.SweepsTo` — it ends so, and in no other way

## Main results

- `Blade.clearsLowest_meetPredecessor`, `Blade.clearsLowest_maskLowest` — both drop the lowest
  vector and nothing else
- `Blade.Sweep.unique` — a loop ends in one way
- `Blade.exists_sweep` — every loop ends, after at most as many rounds as there are vectors
- `Blade.sweepsTo_of_foldlM` — a loop that is not left early takes a round for every vector
- `Blade.sweepsTo_countVector`, `Blade.sweepsTo_listVector` — the loops that count the vectors of a
  blade and list them
-/

namespace Clifford.Blade

variable {b : Blade}

/-! ### The lowest bit -/

/-- A word met with its predecessor. -/
def meetPredecessor (b : Blade) : Blade := b &&& (b - 1)

/-- A word whose bit behind the trailing zeros is masked out. -/
def maskLowest (b : Blade) : Blade := b &&& ~~~vector b.ctz.toNat

/-- A word that is not zero loses its lowest vector. -/
def ClearsLowest (clear : Blade → Blade) : Prop := ∀ b, b ≠ 0 → clear b = b.dropLowest

/-- The number of trailing zeros is the position of the lowest vector. -/
theorem ctz_eq_lowest (hb : b ≠ 0) : b.ctz.toNat = b.lowest :=
  (lowest_unique (BitVec.getLsbD_true_ctz_of_ne_zero hb)
    fun _ hj => BitVec.getLsbD_false_of_lt_ctz hj).symm

theorem clearsLowest_meetPredecessor : ClearsLowest meetPredecessor := by
  intro b hb
  have hpos : b.toNat ≠ 0 := fun h => hb (BitVec.eq_of_toNat_eq (by simpa using h))
  -- Words wrap around below zero, but there is nothing to wrap around here.
  have hpred : (b - 1).toNat = b.toNat - 1 := by bv_omega
  refine BitVec.eq_of_toNat_eq ?_
  rw [meetPredecessor, BitVec.toNat_and, hpred, dropLowest, BitVec.toNat_ofNatLT]

theorem clearsLowest_maskLowest : ClearsLowest maskLowest := by
  intro b hb
  refine BitVec.eq_of_getLsbD_eq fun i hi => ?_
  rw [maskLowest, ctz_eq_lowest hb, getLsbD_dropLowest hb, BitVec.getLsbD_and, BitVec.getLsbD_not,
    getLsbD_vector]
  have hlowest := lowest_lt hb
  by_cases heq : i = b.lowest
  · simp [heq, hlowest]
  · simp [heq, hi, Ne.symm heq]

/-! ### Loops -/

/-- **A loop over the bits of a word.** While a bit is left, `body` is given the state and the
number of trailing zeros, and `clear` takes a bit away; where `body` has no next state, the loop is
left early. The loop over `rest` from the state `s` ends after `n` rounds, with the state `r` or
early. -/
inductive Sweep {σ : Type} (clear : Blade → Blade) (body : σ → Nat → Option σ) :
    Blade → σ → Nat → Option σ → Prop where
  /-- No bit is left. -/
  | exhausted (s : σ) : Sweep clear body 0 s 0 (some s)
  /-- The loop is left early. -/
  | stopped {rest : Blade} {s : σ} (left : rest ≠ 0) (stop : body s rest.ctz.toNat = none) :
      Sweep clear body rest s 1 none
  /-- A round is followed by others. -/
  | round {rest : Blade} {s s' : σ} {n : Nat} {r : Option σ} (left : rest ≠ 0)
      (next : body s rest.ctz.toNat = some s') (others : Sweep clear body (clear rest) s' n r) :
      Sweep clear body rest s (n + 1) r

namespace Sweep

variable {σ : Type} {clear : Blade → Blade} {body : σ → Nat → Option σ} {rest : Blade} {s : σ}
  {n n' : Nat} {r r' : Option σ}

/-- A loop ends in one way. -/
theorem unique (h : Sweep clear body rest s n r) (h' : Sweep clear body rest s n' r') :
    n' = n ∧ r' = r := by
  induction h generalizing n' r' with
  | exhausted s =>
    cases h' with
    | exhausted => exact ⟨rfl, rfl⟩
    | stopped left => exact absurd rfl left
    | round left => exact absurd rfl left
  | stopped left stop =>
    cases h' with
    | exhausted => exact absurd rfl left
    | stopped => exact ⟨rfl, rfl⟩
    | round _ next => simp [stop] at next
  | round left next _ ih =>
    cases h' with
    | exhausted => exact absurd rfl left
    | stopped _ stop => simp [stop] at next
    | round _ next' others =>
      obtain rfl := Option.some.inj (next.symm.trans next')
      obtain ⟨rfl, rfl⟩ := ih others
      exact ⟨rfl, rfl⟩

/-- A loop that is not left early takes a round for every vector. -/
theorem rounds_eq_grade (hclear : ClearsLowest clear) {s' : σ}
    (h : Sweep clear body rest s n (some s')) : n = rest.grade := by
  generalize hr : some s' = r at h
  induction h with
  | exhausted => rw [grade_zero]
  | stopped => cases hr
  | @round rest _ _ n _ left _ _ ih =>
    rw [grade, dif_neg left, ih hr, hclear rest left]

end Sweep

variable {σ : Type} {clear : Blade → Blade}

/-- **Every loop ends**, with what a fold over the positions gives. -/
theorem exists_sweep (hclear : ClearsLowest clear) (body : σ → Nat → Option σ) (b : Blade) (s : σ) :
    ∃ n ≤ b.grade, Sweep clear body b s n (b.positions.foldlM body s) := by
  -- Both the list of positions and the loop go on with the word without its lowest vector.
  induction b using positions.induct generalizing s with
  | case1 =>
    rw [positions_zero]
    exact ⟨0, Nat.zero_le _, .exhausted s⟩
  | case2 b hb ih =>
    rw [positions, dif_neg hb, grade, dif_neg hb, List.foldlM_cons]
    cases hbody : body s b.lowest with
    | none => exact ⟨1, by omega, .stopped hb (by rw [ctz_eq_lowest hb, hbody])⟩
    | some s' =>
      obtain ⟨n, hn, hothers⟩ := ih s'
      refine ⟨n + 1, by omega, .round hb (by rw [ctz_eq_lowest hb, hbody]) ?_⟩
      rw [hclear b hb]
      exact hothers

/-- The loop ends after `n` rounds with `r`, and in no other way. -/
def SweepsTo (clear : Blade → Blade) (body : σ → Nat → Option σ) (b : Blade) (s : σ) (n : Nat)
    (r : Option σ) : Prop :=
  ∀ m q, Sweep clear body b s m q ↔ m = n ∧ q = r

theorem Sweep.sweepsTo {body : σ → Nat → Option σ} {s : σ} {n : Nat} {r : Option σ}
    (h : Sweep clear body b s n r) : SweepsTo clear body b s n r := by
  intro m q
  refine ⟨h.unique, ?_⟩
  rintro ⟨rfl, rfl⟩
  exact h

/-- A loop that is not left early is a fold over the positions, with a round for each of them. -/
theorem sweepsTo_of_foldlM (hclear : ClearsLowest clear) {body : σ → Nat → Option σ} {s s' : σ}
    (h : b.positions.foldlM body s = some s') : SweepsTo clear body b s b.grade (some s') := by
  obtain ⟨n, -, hrun⟩ := exists_sweep hclear body b s
  rw [h] at hrun
  rw [← hrun.rounds_eq_grade hclear]
  exact hrun.sweepsTo

/-- A loop whose body always has a next state visits all positions. -/
theorem sweepsTo_visit (hclear : ClearsLowest clear) (visit : σ → Nat → σ) (b : Blade) (s : σ) :
    SweepsTo clear (fun s i => some (visit s i)) b s b.grade
      (some (b.positions.foldl visit s)) :=
  sweepsTo_of_foldlM hclear (List.foldlM_pure (m := Option))

/-! ### Counting and listing -/

/-- One round of the loop that counts the vectors of a blade. -/
def countVector (count : Nat) (_ : Nat) : Nat := count + 1

/-- One round of the loop that lists the vectors of a blade. -/
def listVector (listed : List Nat) (i : Nat) : List Nat := listed ++ [i]

theorem foldl_countVector (l : List Nat) (count : Nat) :
    l.foldl countVector count = count + l.length := by
  induction l generalizing count with
  | nil => rfl
  | cons i rest ih =>
    rw [List.foldl_cons, ih, countVector, List.length_cons]
    omega

theorem foldl_listVector (l listed : List Nat) : l.foldl listVector listed = listed ++ l := by
  induction l generalizing listed with
  | nil => simp
  | cons i rest ih => simp [listVector, ih]

/-- **Kernighan's loop counts the vectors of a blade.** -/
theorem sweepsTo_countVector (b : Blade) :
    SweepsTo meetPredecessor (fun count i => some (countVector count i)) b 0 b.grade
      (some b.grade) := by
  have hrun := sweepsTo_visit clearsLowest_meetPredecessor countVector b 0
  rwa [foldl_countVector, Nat.zero_add, ← grade_eq_length] at hrun

theorem sweepsTo_listVector (b : Blade) :
    SweepsTo meetPredecessor (fun listed i => some (listVector listed i)) b [] b.grade
      (some b.positions) := by
  have hrun := sweepsTo_visit clearsLowest_meetPredecessor listVector b []
  rwa [foldl_listVector, List.nil_append] at hrun

end Clifford.Blade

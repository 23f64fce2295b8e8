import Clifford.Algebra.Sandwich
import Clifford.Proofs.Index
import Clifford.Proofs.Values.Sums
import Mathlib.Algebra.Ring.Int.Defs
import Mathlib.Data.List.Nodup
import Mathlib.Data.List.ProdSigma

/-!
# Buckets of contributions

The contributions of a sandwich are sorted into buckets, one for each unordered pair of operator
blades and each blade of the operand. A bucket counts its contributions with their signs, and the
buckets are listed in the order in which they are first touched. They can be listed without
counting, since it is known which contributions a bucket has: this file relates that list to the
count of the contributions one by one.

## Main definitions

- `Sandwich.Live` — a contribution that does not vanish for the metric
- `Sandwich.bucketOf` — the bucket of a triple of blades
- `Tally`, `Tally.add` — buckets that are counted one contribution after the other
- `Sandwich.tally` — counts all contributions of a sandwich

## Main results

- `Sandwich.mem_buckets_iff`, `Sandwich.nodup_buckets` — which buckets there are
- `Sandwich.count_bucketOf_eq_sum` — a bucket counts all its contributions
- `Sandwich.tally_buckets` — counting them one by one gives the same buckets in the same order
-/

namespace Clifford

variable {σ K S V : Type}

/-- What a bucket is found by: its pair, the smaller blade first, and the blade of the operand. -/
abbrev BucketKey := (Blade × Blade) × Blade

/-- The key of a bucket. -/
def Bucket.key (bucket : Bucket) : BucketKey := ((bucket.low, bucket.high), bucket.operand)

namespace Sandwich

theorem count_comm (l r i : Blade) : count l r i = count r l i := by
  by_cases hlr : l = r
  · rw [hlr]
  · rw [count, if_neg hlr, count, if_neg (Ne.symm hlr), add_comm]

/-! ### Buckets -/

theorem ordered_cases (l r : Blade) : ordered (l, r) = (l, r) ∨ ordered (l, r) = (r, l) := by
  rw [ordered]
  split
  · exact .inl rfl
  · exact .inr rfl

theorem ordered_comm (l r : Blade) : ordered (l, r) = ordered (r, l) := by
  rw [ordered, ordered]
  dsimp only
  split <;> split
  · rename_i hle hge
    rw [BitVec.le_antisymm hle hge]
  · rfl
  · rfl
  · rename_i hlt hgt
    exact absurd (BitVec.le_total l r) (not_or.2 ⟨hlt, hgt⟩)

theorem ordered_eq_iff {l r a b : Blade} :
    ordered (a, b) = ordered (l, r) ↔ a = l ∧ b = r ∨ a = r ∧ b = l := by
  constructor
  · intro h
    obtain hab | hab := ordered_cases a b <;> obtain hlr | hlr := ordered_cases l r <;>
      rw [hab, hlr, Prod.mk.injEq] at h
    · exact .inl h
    · exact .inr h
    · exact .inr h.symm
    · exact .inl h.symm
  · rintro (⟨rfl, rfl⟩ | ⟨rfl, rfl⟩)
    · rfl
    · exact ordered_comm _ _

theorem mem_pairs {blades : List Blade} {l r : Blade} (h : (l, r) ∈ pairs blades) :
    l ∈ blades ∧ r ∈ blades := by
  induction blades with
  | nil => cases h
  | cons a rest ih =>
    rw [pairs, List.mem_cons, List.mem_append, List.mem_map] at h
    obtain h | ⟨b, hb, h⟩ | h := h
    · obtain ⟨rfl, rfl⟩ := Prod.mk.inj h
      exact ⟨List.mem_cons_self, List.mem_cons_self⟩
    · obtain ⟨rfl, rfl⟩ := Prod.mk.inj h
      exact ⟨List.mem_cons_self, List.mem_cons_of_mem _ hb⟩
    · exact ⟨List.mem_cons_of_mem _ (ih h).1, List.mem_cons_of_mem _ (ih h).2⟩

/-- Two blades make a pair in one of the two orders. -/
theorem exists_mem_pairs {blades : List Blade} {l r : Blade} (hl : l ∈ blades)
    (hr : r ∈ blades) : (l, r) ∈ pairs blades ∨ (r, l) ∈ pairs blades := by
  induction blades with
  | nil => cases hl
  | cons a rest ih =>
    simp only [pairs, List.mem_cons, List.mem_append, List.mem_map, Prod.mk.injEq]
    obtain hl | hl := List.mem_cons.1 hl <;> obtain hr | hr := List.mem_cons.1 hr
    · exact .inl (.inl ⟨hl, hr⟩)
    · exact .inl (.inr (.inl ⟨r, hr, hl.symm, rfl⟩))
    · exact .inr (.inr (.inl ⟨l, hl, hr.symm, rfl⟩))
    · exact (ih hl hr).imp (fun h => .inr (.inr h)) fun h => .inr (.inr h)

/-- No unordered pair occurs twice. -/
theorem pairs_pairwise {blades : List Blade} (h : blades.Nodup) :
    (pairs blades).Pairwise fun p q => ordered p ≠ ordered q := by
  induction blades with
  | nil => exact List.Pairwise.nil
  | cons a rest ih =>
    obtain ⟨ha, hrest⟩ := List.nodup_cons.1 h
    -- The new pairs all contain the first blade; the old ones do not.
    have hold : ∀ b, ∀ q ∈ pairs rest, ordered (a, b) ≠ ordered q := by
      rintro b ⟨c, d⟩ hq heq
      obtain ⟨hc, hd⟩ := mem_pairs hq
      obtain ⟨rfl, -⟩ | ⟨rfl, -⟩ := ordered_eq_iff.1 heq
      · exact ha hc
      · exact ha hd
    rw [pairs, List.pairwise_cons, List.pairwise_append, List.pairwise_map]
    refine ⟨fun q hq => ?_, ?_, ih hrest, fun p hp => ?_⟩
    · obtain hq | hq := List.mem_append.1 hq
      · obtain ⟨b, hb, rfl⟩ := List.mem_map.1 hq
        intro heq
        obtain ⟨-, rfl⟩ | ⟨rfl, -⟩ := ordered_eq_iff.1 heq
        · exact ha hb
        · exact ha hb
      · exact hold a q hq
    · refine hrest.imp fun {b c} hbc heq => ?_
      obtain ⟨-, rfl⟩ | ⟨rfl, rfl⟩ := ordered_eq_iff.1 heq
      · exact hbc rfl
      · exact hbc rfl
    · obtain ⟨b, -, rfl⟩ := List.mem_map.1 hp
      exact hold b

section

variable [Number K] {P : Sandwich K S} {x : Multivector K S} {bucket : Bucket}

/-- Two components of the operator and one of the operand make a contribution that does not vanish
for the metric. -/
structure Live (P : Sandwich K S) (x : Multivector K S) (l r i : Blade) : Prop where
  left : l ∈ P.operator.blades
  right : r ∈ P.operator.blades
  operand : i ∈ x.blades
  pair : (P.algebra.metric.factors? (l &&& r)).isSome
  inner : (P.algebra.metric.factors? ((l ^^^ r) &&& i)).isSome

theorem Live.swap {l r i : Blade} (h : Live P x l r i) : Live P x r l i where
  left := h.right
  right := h.left
  operand := h.operand
  pair := BitVec.and_comm l r ▸ h.pair
  inner := BitVec.xor_comm l r ▸ h.inner

/-- The bucket of a triple of blades. -/
def bucketOf (l r i : Blade) : Bucket :=
  { low := (ordered (l, r)).1, high := (ordered (l, r)).2, operand := i, count := count l r i }

theorem bucketOf_comm (l r i : Blade) : bucketOf l r i = bucketOf r l i := by
  rw [bucketOf, bucketOf, ordered_comm, count_comm]

theorem blade_bucketOf (l r i : Blade) : (bucketOf l r i).blade = l ^^^ r ^^^ i := by
  obtain h | h := ordered_cases l r <;> rw [Bucket.blade, bucketOf, h]
  dsimp only
  rw [BitVec.xor_comm r l]

theorem mem_buckets_iff :
    bucket ∈ P.buckets x ↔ ∃ l r i, Live P x l r i ∧ bucket = bucketOf l r i := by
  have hmem : bucket ∈ P.buckets x ↔ ∃ l r, (l, r) ∈ P.livePairs ∧ ∃ i,
      (i ∈ x.blades ∧ (P.algebra.metric.factors? ((l ^^^ r) &&& i)).isSome) ∧
        bucketOf l r i = bucket := by
    simp [buckets, bucketOf]
  rw [hmem]
  constructor
  · rintro ⟨l, r, hpair, i, ⟨hi, hinner⟩, rfl⟩
    obtain ⟨hpair, hlive⟩ := List.mem_filter.1 hpair
    exact ⟨l, r, i, ⟨(mem_pairs hpair).1, (mem_pairs hpair).2, hi, hlive, hinner⟩, rfl⟩
  · rintro ⟨l, r, i, hlive, rfl⟩
    obtain hpair | hpair := exists_mem_pairs hlive.left hlive.right
    · exact ⟨l, r, List.mem_filter.2 ⟨hpair, hlive.pair⟩, i, ⟨hlive.operand, hlive.inner⟩, rfl⟩
    · have hswap := hlive.swap
      exact ⟨r, l, List.mem_filter.2 ⟨hpair, hswap.pair⟩, i, ⟨hswap.operand, hswap.inner⟩,
        bucketOf_comm r l i⟩

theorem key_bucketOf (l r i : Blade) : (bucketOf l r i).key = (ordered (l, r), i) := rfl

/-- No two buckets have the same key. -/
theorem nodup_map_key_buckets (hP : P.operator.blades.Nodup) (hx : x.blades.Nodup) :
    ((P.buckets x).map Bucket.key).Nodup := by
  rw [buckets, List.map_flatMap, List.nodup_flatMap]
  constructor
  · rintro ⟨l, r⟩ -
    rw [List.map_map]
    exact (hx.filter _).map fun i j heq => congrArg Prod.snd heq
  · refine ((pairs_pairwise hP).sublist List.filter_sublist).imp fun {p q} hpq => ?_
    intro key hp hq
    simp only [List.map_map, List.mem_map, Function.comp_apply] at hp hq
    obtain ⟨i, -, rfl⟩ := hp
    obtain ⟨j, -, heq⟩ := hq
    exact hpq (congrArg Prod.fst heq).symm

theorem nodup_buckets (hP : P.operator.blades.Nodup) (hx : x.blades.Nodup) :
    (P.buckets x).Nodup :=
  .of_map _ (nodup_map_key_buckets hP hx)

/-- **A bucket counts the signs of all its contributions**, one for each order of its pair. -/
theorem count_bucketOf_eq_sum {blades : List Blade} (h : blades.Nodup) {l r : Blade}
    (hl : l ∈ blades) (hr : r ∈ blades) (i : Blade) :
    (bucketOf l r i).count =
      (((blades ×ˢ blades).filter fun p => ordered p = ordered (l, r)).map fun p =>
        sign p.1 i p.2).sum := by
  have horders : ((blades ×ˢ blades).filter fun p => ordered p = ordered (l, r)).toFinset =
      {(l, r), (r, l)} := by
    ext ⟨a, b⟩
    simp only [List.mem_toFinset, List.mem_filter, decide_eq_true_eq, ordered_eq_iff,
      Finset.mem_insert, Finset.mem_singleton, Prod.mk.injEq]
    constructor
    · exact fun h => h.2
    · rintro (⟨rfl, rfl⟩ | ⟨rfl, rfl⟩)
      · exact ⟨List.pair_mem_product.2 ⟨hl, hr⟩, .inl ⟨rfl, rfl⟩⟩
      · exact ⟨List.pair_mem_product.2 ⟨hr, hl⟩, .inr ⟨rfl, rfl⟩⟩
  rw [← List.sum_toFinset _ ((h.product h).filter _), horders, bucketOf, count]
  split
  · rename_i hlr
    simp [hlr]
  · rename_i hlr
    rw [Finset.sum_pair fun heq => hlr (Prod.mk.inj heq).1]

end

end Sandwich

/-! ### Counting one by one -/

/-- Buckets in the order in which they were first touched, with an index of their places. -/
structure Tally where
  /-- The buckets. -/
  buckets : List Bucket := []
  /-- The place of each bucket. -/
  index : Std.HashMap BucketKey Nat := ∅

namespace Tally

/-- Counts the contribution of two operator blades around a blade of the operand. The first one of
a bucket appends it. -/
def add (tally : Tally) (l r i : Blade) : Tally :=
  let (low, high) := Sandwich.ordered (l, r)
  match tally.index[((low, high), i)]? with
  | some place =>
    { tally with
      buckets := tally.buckets.modify place fun bucket =>
        { bucket with count := bucket.count + Sandwich.sign l i r } }
  | none =>
    { buckets := tally.buckets ++ [{ low, high, operand := i, count := Sandwich.sign l i r }]
      index := tally.index.insert ((low, high), i) tally.buckets.length }

end Tally

/-- Two operator blades and a blade of the operand that is between them. -/
structure Triple where
  /-- The operator blade on the left. -/
  left : Blade
  /-- The operator blade on the right. -/
  right : Blade
  /-- The blade of the operand. -/
  operand : Blade

namespace Triple

/-- The key of the bucket that counts the contribution. -/
def key (t : Triple) : BucketKey := (Sandwich.ordered (t.left, t.right), t.operand)

/-- The sign of the contribution. -/
def sign (t : Triple) : Int := Sandwich.sign t.left t.operand t.right

end Triple

namespace Tally

/-- The sum of the signs that several contributions add to a bucket. -/
def countOf (ts : List Triple) (key : BucketKey) : Int :=
  (ts.map fun t => if t.key = key then t.sign else 0).sum

/-- The bucket of a key, counting several contributions. -/
def bucketAt (ts : List Triple) (key : BucketKey) : Bucket :=
  { low := key.1.1, high := key.1.2, operand := key.2, count := countOf ts key }

/-- A tally has counted just some contributions. -/
structure Counts (tally : Tally) (ts : List Triple) : Prop where
  /-- There is one bucket for each key, in the order of first occurrences. -/
  buckets_eq : tally.buckets = (ts.map Triple.key).eraseDups.map (bucketAt ts)
  /-- The index has the places of the keys. -/
  indexes : Indexes tally.index (ts.map Triple.key).eraseDups

theorem Counts.empty : Counts {} [] := ⟨rfl, .empty⟩

theorem countOf_append (ts : List Triple) (t : Triple) (key : BucketKey) :
    countOf (ts ++ [t]) key = countOf ts key + if t.key = key then t.sign else 0 := by
  simp [countOf]

theorem countOf_eq_zero {ts : List Triple} {key : BucketKey} (h : key ∉ ts.map Triple.key) :
    countOf ts key = 0 := by
  refine List.sum_eq_zero fun x hx => ?_
  obtain ⟨t, ht, rfl⟩ := List.mem_map.1 hx
  exact if_neg fun hkey => h (List.mem_map.2 ⟨t, ht, hkey⟩)

theorem bucketAt_append_of_ne (ts : List Triple) {t : Triple} {key : BucketKey}
    (h : t.key ≠ key) : bucketAt (ts ++ [t]) key = bucketAt ts key := by
  rw [bucketAt, countOf_append, if_neg h, add_zero, bucketAt]

/-- The bucket of one more contribution counts its sign; the other buckets stay as they are. -/
theorem modify_map_bucketAt {keys : List BucketKey} {index : Std.HashMap BucketKey Nat}
    (hindex : Indexes index keys) (ts : List Triple) {t : Triple} {place : Nat}
    (hplace : index[t.key]? = some place) :
    ((keys.map (bucketAt ts)).modify place fun bucket =>
      { bucket with count := bucket.count + t.sign }) = keys.map (bucketAt (ts ++ [t])) := by
  refine List.ext_getElem? fun j => ?_
  rw [List.getElem?_modify, List.getElem?_map, List.getElem?_map]
  cases hj : keys[j]? with
  | none => rfl
  | some key =>
    by_cases hjp : place = j
    · subst hjp
      obtain rfl : t.key = key := Option.some.inj (((hindex _ place).1 hplace).symm.trans hj)
      simp only [Option.map_some, if_true, Option.map_eq_map]
      rw [bucketAt, bucketAt, countOf_append, if_pos rfl]
    · have hne : t.key ≠ key := by
        rintro rfl
        exact hjp (Option.some.inj (hplace.symm.trans ((hindex _ j).2 hj)))
      simp only [Option.map_some, if_neg hjp, bucketAt_append_of_ne ts hne, Option.map_eq_map]

/-- The first contribution of a bucket leaves all other buckets as they are. -/
theorem map_bucketAt_append {keys : List BucketKey} {ts : List Triple} {t : Triple}
    (hkeys : t.key ∉ keys) (hts : t.key ∉ ts.map Triple.key) :
    (keys ++ [t.key]).map (bucketAt (ts ++ [t])) = keys.map (bucketAt ts) ++
      [{ low := t.key.1.1, high := t.key.1.2, operand := t.key.2, count := t.sign }] := by
  have hold : keys.map (bucketAt (ts ++ [t])) = keys.map (bucketAt ts) := by
    refine List.map_congr_left fun key hkey => bucketAt_append_of_ne ts ?_
    rintro rfl
    exact hkeys hkey
  rw [List.map_append, hold, List.map_singleton, bucketAt, countOf_append, countOf_eq_zero hts,
    if_pos rfl, zero_add]

/-- **One more contribution is counted.** -/
theorem Counts.add {tally : Tally} {ts : List Triple} (h : tally.Counts ts) (t : Triple) :
    (tally.add t.left t.right t.operand).Counts (ts ++ [t]) := by
  obtain ⟨hbuckets, hindex⟩ := h
  have hkeys : (ts ++ [t]).map Triple.key = ts.map Triple.key ++ [t.key] := by simp
  unfold Tally.add
  change Counts (match tally.index[t.key]? with | some _ => _ | none => _) _
  cases hplace : tally.index[t.key]? with
  | some place =>
    have hmem : t.key ∈ ts.map Triple.key :=
      List.mem_eraseDups.1 (List.mem_of_getElem? ((hindex t.key place).1 hplace))
    have hsame : ((ts ++ [t]).map Triple.key).eraseDups = (ts.map Triple.key).eraseDups := by
      rw [hkeys, eraseDups_append_singleton_of_mem hmem]
    refine ⟨?_, hsame ▸ hindex⟩
    rw [hsame, ← modify_map_bucketAt hindex ts hplace, ← hbuckets]
    rfl
  | none =>
    have hnew : t.key ∉ (ts.map Triple.key).eraseDups := hindex.getElem?_eq_none.1 hplace
    have hnot : t.key ∉ ts.map Triple.key := fun hmem => hnew (List.mem_eraseDups.2 hmem)
    have hmore : ((ts ++ [t]).map Triple.key).eraseDups =
        (ts.map Triple.key).eraseDups ++ [t.key] := by
      rw [hkeys, eraseDups_append_singleton_of_notMem hnot]
    have hlength : tally.buckets.length = (ts.map Triple.key).eraseDups.length := by
      rw [hbuckets, List.length_map]
    refine ⟨?_, ?_⟩
    · rw [hmore, map_bucketAt_append hnew hnot, ← hbuckets]
      rfl
    · rw [hmore]
      dsimp only
      rw [hlength]
      exact hindex.insert hnew

/-- Several contributions are counted, one after the other. -/
theorem Counts.foldl {tally : Tally} {ts : List Triple} (h : tally.Counts ts)
    (more : List Triple) :
    (more.foldl (fun tally t => tally.add t.left t.right t.operand) tally).Counts (ts ++ more) := by
  induction more generalizing tally ts with
  | nil => rwa [List.append_nil]
  | cons t rest ih =>
    have hnext := ih (h.add t)
    rwa [List.append_assoc, List.singleton_append] at hnext

end Tally

namespace Sandwich

/-! ### The order of first contributions -/

/-- **Ordered pairs first occur in the order of the unordered ones**: a pair whose second blade
comes earlier in the list was there before, the other way round. -/
theorem eraseDups_flatMap_pairs {κ : Type} [BEq κ] [LawfulBEq κ] {f : Blade → Blade → List κ}
    (hf : ∀ l r, f l r = f r l) (blades : List Blade) :
    (blades.flatMap fun l => blades.flatMap (f l)).eraseDups =
      ((pairs blades).flatMap fun p => f p.1 p.2).eraseDups := by
  let row : Blade → List κ := fun l => blades.flatMap (f l)
  let later : List Blade → List κ := fun todo => (pairs todo).flatMap fun p => f p.1 p.2
  -- The rows of the blades in `done` were listed, those of the blades in `todo` come next.
  have hrows : ∀ done todo : List Blade, done ++ todo = blades →
      (done.flatMap row ++ todo.flatMap row).eraseDups =
        (done.flatMap row ++ later todo).eraseDups := by
    intro done todo hblades
    induction todo generalizing done with
    | nil => rfl
    | cons l rest ih =>
      have hih := ih (done ++ [l]) (by simp [hblades])
      have hrow : row l = done.flatMap (f l) ++ (l :: rest).flatMap (f l) := by
        rw [← List.flatMap_append, hblades]
      have hlater : later (l :: rest) = (l :: rest).flatMap (f l) ++ later rest := by
        simp [later, pairs, List.flatMap_map]
      have hseen : ∀ y ∈ done.flatMap (f l), y ∈ done.flatMap row := by
        intro y hy
        obtain ⟨d, hd, hy⟩ := List.mem_flatMap.1 hy
        have hl : l ∈ blades := by simp [← hblades]
        exact List.mem_flatMap.2 ⟨d, hd, List.mem_flatMap.2 ⟨l, hl, hf l d ▸ hy⟩⟩
      rw [List.flatMap_append, List.flatMap_singleton, hrow] at hih
      simp only [List.append_assoc] at hih
      calc (done.flatMap row ++ (l :: rest).flatMap row).eraseDups
          = (done.flatMap row ++ (done.flatMap (f l) ++
              ((l :: rest).flatMap (f l) ++ rest.flatMap row))).eraseDups := by
            rw [List.flatMap_cons, hrow, List.append_assoc]
        _ = (done.flatMap row ++ (done.flatMap (f l) ++
              ((l :: rest).flatMap (f l) ++ later rest))).eraseDups := hih
        _ = (done.flatMap row ++ later (l :: rest)).eraseDups := by
            rw [eraseDups_append_of_subset hseen, hlater]
  exact hrows [] blades rfl

/-! ### The contributions of a sandwich -/

section

variable [Number K]

/-- Counts the contributions of all pairs of operator blades, in both orders, with all blades of
the operand, one after the other. What vanishes for the metric is left out. -/
def tally (P : Sandwich K S) (x : Multivector K S) : Tally :=
  P.operator.blades.foldl (fun tally l =>
    P.operator.blades.foldl (fun tally r =>
      if (P.algebra.metric.factors? (l &&& r)).isSome then
        x.blades.foldl (fun tally i =>
          if (P.algebra.metric.factors? ((l ^^^ r) &&& i)).isSome then tally.add l r i
          else tally) tally
      else tally) tally) {}

variable (P : Sandwich K S) (x : Multivector K S)

/-- The blades of the operand with which a pair of operator blades contributes. -/
def partners (l r : Blade) : List Blade :=
  if (P.algebra.metric.factors? (l &&& r)).isSome then
    x.blades.filter fun i => (P.algebra.metric.factors? ((l ^^^ r) &&& i)).isSome
  else []

/-- The contributions of a sandwich, in the order in which they are counted. -/
def triples : List Triple :=
  P.operator.blades.flatMap fun l => P.operator.blades.flatMap fun r =>
    (P.partners x l r).map fun i => { left := l, right := r, operand := i }

theorem tally_eq_foldl : P.tally x =
    (P.triples x).foldl (fun tally t => tally.add t.left t.right t.operand) {} := by
  rw [tally, triples, List.foldl_flatMap]
  congr 1
  funext tally l
  rw [List.foldl_flatMap]
  congr 1
  funext tally r
  rw [List.foldl_map, partners]
  split
  · rw [List.foldl_filter]
  · rfl

theorem partners_comm (l r : Blade) : P.partners x l r = P.partners x r l := by
  rw [partners, partners, BitVec.and_comm, BitVec.xor_comm]

theorem buckets_eq_flatMap : P.buckets x = (pairs P.operator.blades).flatMap fun p =>
    (P.partners x p.1 p.2).map (bucketOf p.1 p.2) := by
  rw [buckets, livePairs]
  induction pairs P.operator.blades with
  | nil => rfl
  | cons p rest ih =>
    obtain ⟨l, r⟩ := p
    rw [List.flatMap_cons, ← ih, partners, List.filter_cons]
    dsimp only
    split
    · rw [List.flatMap_cons]
      rfl
    · rfl

variable {P x}

theorem Live.mem_partners {l r i : Blade} (h : Live P x l r i) : i ∈ P.partners x l r := by
  rw [partners, if_pos h.pair]
  exact List.mem_filter.2 ⟨h.operand, h.inner⟩

theorem nodup_partners (hx : x.blades.Nodup) (l r : Blade) : (P.partners x l r).Nodup := by
  rw [partners]
  split
  · exact hx.filter _
  · exact List.nodup_nil

/-- The signs that are counted for a bucket add up to its count. -/
theorem countOf_triples (hP : P.operator.blades.Nodup) (hx : x.blades.Nodup) {l r i : Blade}
    (h : Live P x l r i) :
    Tally.countOf (P.triples x) (ordered (l, r), i) = (bucketOf l r i).count := by
  have hpair : ∀ a b, (((P.partners x a b).map fun j => (⟨a, b, j⟩ : Triple)).map fun t =>
      if t.key = (ordered (l, r), i) then t.sign else 0).sum =
        if ordered (a, b) = ordered (l, r) then sign a i b else 0 := by
    intro a b
    rw [List.map_map, ← List.sum_toFinset _ (nodup_partners hx a b)]
    split
    · rename_i hordered
      have hpartners : P.partners x a b = P.partners x l r := by
        obtain ⟨rfl, rfl⟩ | ⟨rfl, rfl⟩ := ordered_eq_iff.1 hordered
        · rfl
        · exact partners_comm P x a b
      rw [hpartners, Finset.sum_eq_single i]
      · exact if_pos (Prod.mk.injEq .. ▸ ⟨hordered, rfl⟩)
      · exact fun j _ hj => if_neg fun hkey => hj (Prod.mk.inj hkey).2
      · exact fun hi => absurd (List.mem_toFinset.2 h.mem_partners) hi
    · rename_i hordered
      exact Finset.sum_eq_zero fun j _ => if_neg fun hkey => hordered (Prod.mk.inj hkey).1
  rw [count_bucketOf_eq_sum hP h.left h.right, sum_map_filter, Tally.countOf, triples]
  simp only [sum_map_flatMap, hpair, decide_eq_true_eq]
  change _ = ((P.operator.blades.flatMap fun a => P.operator.blades.map (Prod.mk a)).map _).sum
  rw [sum_map_flatMap]
  simp only [List.map_map, Function.comp_def]

/-- **Counting the contributions one by one gives the buckets**, in the order in which they are
first touched. -/
theorem tally_buckets (hP : P.operator.blades.Nodup) (hx : x.blades.Nodup) :
    (P.tally x).buckets = P.buckets x := by
  have hcounts : (P.tally x).Counts (P.triples x) := by
    rw [tally_eq_foldl]
    exact Tally.Counts.empty.foldl _
  let keys : Blade → Blade → List BucketKey := fun l r =>
    (P.partners x l r).map fun i => (ordered (l, r), i)
  have hcomm : ∀ l r, keys l r = keys r l := fun l r => by
    simp only [keys, partners_comm P x l r, ordered_comm l r]
  have htriples : (P.triples x).map Triple.key =
      P.operator.blades.flatMap fun l => P.operator.blades.flatMap (keys l) := by
    simp only [triples, List.map_flatMap, List.map_map]
    rfl
  have hbuckets : (P.buckets x).map Bucket.key =
      (pairs P.operator.blades).flatMap fun p => keys p.1 p.2 := by
    rw [buckets_eq_flatMap, List.map_flatMap]
    simp only [List.map_map]
    rfl
  have hkeys : ((P.triples x).map Triple.key).eraseDups = (P.buckets x).map Bucket.key := by
    rw [htriples, eraseDups_flatMap_pairs hcomm, ← hbuckets,
      eraseDups_of_nodup (nodup_map_key_buckets hP hx)]
  rw [hcounts.buckets_eq, hkeys, List.map_map]
  have hsame : ∀ bucket ∈ P.buckets x,
      (Tally.bucketAt (P.triples x) ∘ Bucket.key) bucket = bucket := by
    intro bucket hbucket
    obtain ⟨l, r, i, hlive, rfl⟩ := mem_buckets_iff.1 hbucket
    rw [Function.comp_apply, key_bucketOf, Tally.bucketAt, countOf_triples hP hx hlive]
    rfl
  exact (List.map_congr_left hsame).trans (List.map_id _)

end

end Sandwich

end Clifford

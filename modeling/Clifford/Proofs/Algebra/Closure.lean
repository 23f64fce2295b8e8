import Clifford.Proofs.Algebra.Refusal
import Clifford.Proofs.Algebra.SandwichBlades
import Clifford.Proofs.Blade.Vectors

/-!
# Results stay in their algebra

A blade is of an algebra if it has no basis vectors outside of its metric. Operations on blades of
an algebra only lead to such blades: the vectors of a product are among those of its factors, those
of an image are indices of rows, and named blades are found in the table of names.

## Main definitions

- `Algebra.Contains` — a blade of basis vectors of the algebra
- `Operation.Adds` — the blades that an operation may add components for, in their order

## Main results

- `Operation.run_lists` — the results of an operation list the blades that it adds
- `Operation.Adds.contains` — they are of the algebra if those of the operands are
- `Operation.run_owned` — which operands have to belong to the algebra
-/

namespace Clifford

variable {σ K S V : Type}

/-! ### The blades of an algebra -/

/-- A blade of basis vectors of the algebra. -/
def Algebra.Contains (A : Algebra K S) (b : Blade) : Prop := b.toNat < Blade.count A.dimension

instance (A : Algebra K S) (b : Blade) : Decidable (A.Contains b) :=
  inferInstanceAs (Decidable (_ < _))

namespace Algebra

variable {A : Algebra K S} {a b : Blade}

theorem contains_iff : A.Contains b ↔ ∀ i, b.getLsbD i = true → i < A.dimension := by
  have hcount : Blade.count A.dimension = 2 ^ A.dimension := by
    rw [Blade.count, Nat.shiftLeft_eq, one_mul]
  rw [Contains, hcount]
  constructor
  · intro h i hi
    by_contra hge
    have hpow : 2 ^ A.dimension ≤ 2 ^ i := Nat.pow_le_pow_right (by omega) (by omega)
    have hbit := Nat.testBit_lt_two_pow (lt_of_lt_of_le h hpow)
    rw [BitVec.testBit_toNat, hi] at hbit
    cases hbit
  · intro h
    refine Nat.lt_pow_two_of_testBit _ fun i hi => ?_
    rw [BitVec.testBit_toNat]
    by_contra hbit
    exact absurd (h i (by simpa using hbit)) (by omega)

namespace Contains

theorem zero : A.Contains 0 := contains_iff.2 fun i hi => by simp at hi

theorem xor (ha : A.Contains a) (hb : A.Contains b) : A.Contains (a ^^^ b) := by
  rw [contains_iff] at ha hb ⊢
  intro i hi
  rw [BitVec.getLsbD_xor] at hi
  cases hbit : a.getLsbD i with
  | true => exact ha i hbit
  | false => exact hb i (by simpa [hbit] using hi)

theorem or (ha : A.Contains a) (hb : A.Contains b) : A.Contains (a ||| b) := by
  rw [contains_iff] at ha hb ⊢
  intro i hi
  rw [BitVec.getLsbD_or, Bool.or_eq_true] at hi
  exact hi.elim (ha i) (hb i)

theorem vector {i : Nat} (hi : i < A.dimension) : A.Contains (.vector i) := by
  have hword : i < 32 := by
    have hle : A.dimension ≤ 31 := A.dimension_le
    omega
  rw [contains_iff]
  intro j hj
  rw [← Blade.mem_positions, Blade.positions_vector hword, List.mem_singleton] at hj
  rwa [hj]

theorem full : A.Contains A.fullBlade := by
  have hdim : 0 < Blade.count A.dimension := by
    rw [Blade.count, Nat.one_shiftLeft]
    exact Nat.two_pow_pos A.dimension
  have hle := Nat.mod_le (Blade.count A.dimension - 1) (2 ^ 32)
  rw [Contains, fullBlade, Blade.full, BitVec.toNat_ofNat]
  omega

/-- The names are those of the blades of the algebra. -/
theorem bladeNamed? {name : String} (h : A.bladeNamed? name = some b) : A.Contains b := by
  rw [Algebra.bladeNamed?, Option.map_eq_some_iff] at h
  obtain ⟨word, hword, rfl⟩ := h
  have hmem := List.mem_of_find?_eq_some hword
  rw [List.mem_reverse, List.mem_range, A.size_names] at hmem
  have hle := Nat.mod_le word (2 ^ 32)
  rw [Contains, BitVec.toNat_ofNat]
  exact lt_of_le_of_lt hle hmem

/-- **No lookup of a name is out of range.** -/
theorem bladeName (h : A.Contains b) : A.names[b.toNat]? = some (A.bladeName b) := by
  have hlt : b.toNat < A.names.size := A.size_names ▸ h
  rw [Algebra.bladeName, Array.getD_eq_getD_getElem?, Array.getElem?_eq_getElem hlt]
  rfl

/-- **No lookup of a square is out of range.** -/
theorem position (h : A.Contains b) {i : Nat} (hi : i ∈ b.positions) : i < A.metric.length :=
  contains_iff.1 h i (Blade.mem_positions.1 hi)

end Contains

/-! ### Products, images and chains -/

variable [Number K] {as bs : List Blade} {m x : Multivector K S}

theorem contains_productBlades {kind : ProductKind} (has : ∀ a ∈ as, A.Contains a)
    (hbs : ∀ b ∈ bs, A.Contains b) : ∀ b ∈ A.productBlades kind as bs, A.Contains b := by
  intro b hb
  simp only [productBlades, List.mem_flatMap, List.mem_filterMap] at hb
  obtain ⟨l, hl, r, hr, hb⟩ := hb
  split at hb
  · obtain rfl := Option.some.inj hb
    exact (has l hl).xor (hbs r hr)
  · cases hb

theorem contains_productOfAll {kind : ProductKind} {lists : List (List Blade)}
    (h : ∀ bs ∈ lists, ∀ b ∈ bs, A.Contains b) : ∀ b ∈ A.productOfAll kind lists, A.Contains b := by
  cases lists with
  | nil => exact List.forall_mem_singleton.2 .zero
  | cons first rest =>
    rw [productOfAll]
    induction rest generalizing first with
    | nil => exact h first List.mem_cons_self
    | cons second rest ih =>
      obtain ⟨hfirst, hrest⟩ := List.forall_mem_cons.1 h
      obtain ⟨hsecond, hrest⟩ := List.forall_mem_cons.1 hrest
      refine ih _ (List.forall_mem_cons.2 ⟨contains_productBlades ?_ hsecond, hrest⟩)
      exact fun b hb => hfirst b (List.mem_eraseDups.1 hb)

/-- The vectors of an image are indices of rows. -/
theorem contains_placements {matrix : SparseMatrix K S} (hmatrix : matrix.length ≤ A.dimension)
    (value : Factor K S) {positions : List Nat} {image : Blade} (himage : A.Contains image)
    (flips : Nat) (term : Term K S) :
    ∀ c ∈ matrix.placements value positions image flips term, A.Contains c.blade := by
  induction positions generalizing image flips term with
  | nil => exact List.forall_mem_singleton.2 himage
  | cons i rest ih =>
    intro c hc
    rw [SparseMatrix.placements, List.mem_flatMap] at hc
    obtain ⟨⟨row, j⟩, hrow, hc⟩ := hc
    have hj : j < A.dimension := by
      obtain ⟨-, hj, -⟩ := List.mem_zipIdx hrow
      omega
    dsimp only at hc
    split at hc
    · cases hc
    · split at hc
      · cases hc
      · exact ih (himage.or (.vector hj)) _ _ c hc

theorem contains_expand [Ord S] {stages : List (Stage K S)}
    (hstages : ∀ stage ∈ stages, ∀ b ∈ stage.factor.blades, A.Contains b) {blade : Blade}
    (hblade : A.Contains blade) (flips : Nat) (term : Term K S) {tree : ProductTree K S}
    (htree : ∀ b ∈ tree.blades, A.Contains b) :
    ∀ b ∈ (A.expand stages blade flips term tree).blades, A.Contains b := by
  induction stages generalizing blade flips term tree with
  | nil =>
    intro b hb
    obtain rfl | hb := ProductTree.mem_blades_add hb
    · exact hblade
    · exact htree b hb
  | cons stage rest ih =>
    obtain ⟨hstage, hrest⟩ := List.forall_mem_cons.1 hstages
    rw [expand]
    -- One component of the factor after the other goes into the tree.
    have hcomponents : ∀ c ∈ stage.factor.components, A.Contains c.1 := fun c hc =>
      hstage c.1 (List.mem_map_of_mem hc)
    generalize stage.factor.components = components at hcomponents
    induction components generalizing tree with
    | nil => exact htree
    | cons c others ihothers =>
      obtain ⟨hc, hothers⟩ := List.forall_mem_cons.1 hcomponents
      rw [List.foldl_cons]
      refine ihothers ?_ hothers
      dsimp only
      split
      · exact htree
      · exact ih hrest (hblade.xor hc) _ _ htree

theorem contains_chainBlades [Ord S] {ms : List (Multivector K S)}
    (hms : ∀ m ∈ ms, ∀ b ∈ m.blades, A.Contains b) (hx : ∀ b ∈ x.blades, A.Contains b) :
    ∀ b ∈ A.chainBlades ms x, A.Contains b := by
  have hstages : ∀ stage ∈ Stage.ofChain ms x, ∀ b ∈ stage.factor.blades, A.Contains b := by
    intro stage hstage
    simp only [Stage.ofChain, List.mem_append, List.mem_cons, List.mem_map,
      List.mem_reverse] at hstage
    obtain ⟨m, hm, rfl⟩ | rfl | ⟨m, hm, rfl⟩ := hstage
    · exact hms m hm
    · exact hx
    · exact hms m hm
  have hempty : ∀ b ∈ ({} : ProductTree K S).blades, A.Contains b := by
    simp [ProductTree.blades, Branches.blades]
  exact fun b hb =>
    contains_expand hstages .zero 0 [] hempty b (ProductTree.mem_blades_optimize hb)

end Algebra

/-- The blades of buckets are products of three blades of the algebra. -/
theorem Sandwich.contains_surviving [Number K] {P : Sandwich K S} {x : Multivector K S}
    {options : SandwichOptions} (hP : ∀ b ∈ P.operator.blades, P.algebra.Contains b)
    (hx : ∀ b ∈ x.blades, P.algebra.Contains b) :
    ∀ b ∈ (P.surviving x options).map Bucket.blade, P.algebra.Contains b := by
  intro b hb
  obtain ⟨bucket, hbucket, rfl⟩ := List.mem_map.1 hb
  obtain ⟨l, r, i, hlive, rfl⟩ := mem_buckets_iff.1 (mem_surviving hbucket).1
  rw [blade_bucketOf]
  exact ((hP l hlive.left).xor (hP r hlive.right)).xor (hx i hlive.operand)

/-! ### Operations -/

/-- The multivectors that an operation has built. -/
def StepResult.built : StepResult K S → List (Multivector K S)
  | multivector m => [m]
  | multivectors ms => ms
  | points _ items => items.filterMap Except.toOption
  | nothing | scalar _ | sandwich _ => []

namespace Operation

/-- The multivectors that an operation is given. -/
def operands : Operation K S → List (Multivector K S)
  | one | pseudoscalar | basisVectors | scalar _ | vector _ | named _ | call _ _
  | combine _ _ _ => []
  | scale _ m | unary _ m | measure _ m | outermorphism m _ | sandwich m => [m]
  | binary _ a b | compare _ a b | slerp a b => [a, b]
  | plus ms | mulAll _ ms => ms
  | slerpAt circle _ => [circle.first, circle.last]
  | apply P x _ => [P.operator, x]
  | force P => [P.operator]
  | chain ms x => x :: ms

/-- The operands that an operation compares with its algebra. -/
def checked : Operation K S → List (Multivector K S)
  | slerpAt _ _ | force _ => []
  | apply _ x _ => [x]
  | op => op.operands

/-- The algebra of the results: a prepared operator brings its own. -/
def algebra (A : Algebra K S) : Operation K S → Algebra K S
  | apply P _ _ | force P => P.algebra
  | _ => A

end Operation

section Adds

variable [Number K]

/-- The blades that the operation may add components for. Only a normalization and a logarithm
depend on more than blades: a single component may be normalized for itself, and nothing is left
where the factor comes to a literal zero. -/
def UnaryOperation.Adds (A : Algebra K S) (m : Multivector K S) :
    UnaryOperation → List Blade → Prop
  | negate, bs | gradeInvolution, bs | reverse, bs | conjugate, bs | inverse, bs => bs = m.blades
  | extractGrade k, bs => bs = m.blades.filter fun b => b.grade == k
  | extract blades, bs => bs = m.blades.filter fun b => blades.contains b
  | normalize, bs => bs = m.blades ∨ bs = [] ∨ ∃ b ∈ m.blades, bs = [b]
  | dual, bs | undual, bs =>
    bs = A.productBlades .leftContraction m.blades [A.fullBlade]
  | exp, bs => bs = 0 :: m.blades
  | log, bs => bs = (m.blades.filter fun b => b.grade == 2) ∨ bs = []

/-- The blades that the operation may add components for. -/
def BinaryOperation.Adds (A : Algebra K S) (a b : Multivector K S) :
    BinaryOperation → List Blade → Prop
  | minus, bs => bs = a.blades ++ b.blades
  | mul kind, bs => bs = A.productBlades kind a.blades b.blades
  | sandwichProduct, bs => bs = A.productOfAll .geometric [a.blades, b.blades, a.blades]
  | reflect, bs =>
    bs = (Sandwich.surviving { algebra := A, operator := a } b {}).map Bucket.blade ∨ bs = []

/-- The blades that an operation may add components for, in their order. Operations that build no
multivector add none. -/
def Operation.Adds [Ord S] (A : Algebra K S) : Operation K S → List Blade → Prop
  | one, bs | scalar _, bs => bs = [0]
  | pseudoscalar, bs => bs = [A.fullBlade]
  | basisVectors, bs => ∃ i < A.dimension, bs = [.vector i]
  | vector _, bs => bs = (List.range A.dimension).map Blade.vector
  | named components, bs => bs = components.filterMap fun c => A.bladeNamed? c.1
  | scale x m, bs => bs = if x.isZero then [] else m.blades
  | unary op m, bs => op.Adds A m bs
  | binary op a b, bs => op.Adds A a b bs
  | plus ms, bs => bs = ms.flatMap Multivector.blades
  | mulAll kind ms, bs => bs = A.productOfAll kind (ms.map Multivector.blades)
  | outermorphism m matrix, bs => matrix.length ≤ A.dimension ∧
    bs = (m.components.flatMap fun (b, value) =>
      matrix.placements value b.positions 0 0 []).map Contribution.blade
  | slerpAt circle _, bs => bs = circle.first.blades ++ circle.last.blades
  | apply P x options, bs => bs = (P.surviving x options).map Bucket.blade
  | chain ms x, bs => bs = A.chainBlades ms x
  | call _ _, _ | combine _ _ _, _ | measure _ _, _ | compare _ _ _, _ | slerp _ _, _
  | sandwich _, _ | force _, _ => False

variable {A : Algebra K S} {m a b : Multivector K S} {bs : List Blade}

theorem UnaryOperation.Adds.contains {op : UnaryOperation} (h : op.Adds A m bs)
    (hm : ∀ b ∈ m.blades, A.Contains b) : ∀ b ∈ bs, A.Contains b := by
  have hfilter : ∀ keep : Blade → Bool, ∀ b ∈ m.blades.filter keep, A.Contains b :=
    fun keep b hb => hm b (List.mem_filter.1 hb).1
  cases op with
  | negate => exact h ▸ hm
  | gradeInvolution => exact h ▸ hm
  | reverse => exact h ▸ hm
  | conjugate => exact h ▸ hm
  | inverse => exact h ▸ hm
  | extractGrade k => exact h ▸ hfilter _
  | extract blades => exact h ▸ hfilter _
  | normalize =>
    obtain rfl | rfl | ⟨b, hb, rfl⟩ := h
    · exact hm
    · exact nofun
    · exact List.forall_mem_singleton.2 (hm b hb)
  | dual =>
    exact h ▸ Algebra.contains_productBlades hm (List.forall_mem_singleton.2 .full)
  | undual =>
    exact h ▸ Algebra.contains_productBlades hm (List.forall_mem_singleton.2 .full)
  | exp => exact h ▸ List.forall_mem_cons.2 ⟨.zero, hm⟩
  | log =>
    obtain rfl | rfl := h
    · exact hfilter _
    · exact nofun

theorem BinaryOperation.Adds.contains {op : BinaryOperation} (h : op.Adds A a b bs)
    (ha : ∀ c ∈ a.blades, A.Contains c) (hb : ∀ c ∈ b.blades, A.Contains c) :
    ∀ c ∈ bs, A.Contains c := by
  cases op with
  | minus => exact h ▸ List.forall_mem_append.2 ⟨ha, hb⟩
  | mul kind => exact h ▸ Algebra.contains_productBlades ha hb
  | sandwichProduct =>
    refine h ▸ Algebra.contains_productOfAll (List.forall_mem_cons.2 ⟨ha, ?_⟩)
    exact List.forall_mem_cons.2 ⟨hb, List.forall_mem_singleton.2 ha⟩
  | reflect =>
    obtain rfl | rfl := h
    · exact Sandwich.contains_surviving ha hb
    · exact nofun

/-- **The blades that an operation adds are of the algebra**, if those of its operands are. -/
theorem Operation.Adds.contains [Ord S] {op : Operation K S} (h : op.Adds A bs)
    (hoperands : ∀ m ∈ op.operands, ∀ b ∈ m.blades, (op.algebra A).Contains b) :
    ∀ b ∈ bs, (op.algebra A).Contains b := by
  cases op with
  | one => exact h ▸ List.forall_mem_singleton.2 .zero
  | scalar x => exact h ▸ List.forall_mem_singleton.2 .zero
  | pseudoscalar => exact h ▸ List.forall_mem_singleton.2 .full
  | basisVectors =>
    obtain ⟨i, hi, rfl⟩ := h
    exact List.forall_mem_singleton.2 (.vector hi)
  | vector xs =>
    intro b hb
    obtain ⟨i, hi, rfl⟩ := List.mem_map.1 (h ▸ hb)
    exact .vector (List.mem_range.1 hi)
  | named components =>
    intro b hb
    obtain ⟨c, -, hc⟩ := List.mem_filterMap.1 (h ▸ hb)
    exact .bladeNamed? hc
  | scale x m =>
    intro b hb
    rw [h] at hb
    split at hb
    · cases hb
    · exact hoperands m List.mem_cons_self b hb
  | unary op m => exact UnaryOperation.Adds.contains h (hoperands m List.mem_cons_self)
  | binary op a b =>
    obtain ⟨ha, hb⟩ := List.forall_mem_cons.1 hoperands
    exact BinaryOperation.Adds.contains h ha (hb b List.mem_cons_self)
  | plus ms =>
    intro b hb
    obtain ⟨m, hm, hb⟩ := List.mem_flatMap.1 (h ▸ hb)
    exact hoperands m hm b hb
  | mulAll kind ms =>
    refine h ▸ Algebra.contains_productOfAll fun bs hbs => ?_
    obtain ⟨m, hm, rfl⟩ := List.mem_map.1 hbs
    exact hoperands m hm
  | outermorphism m matrix =>
    obtain ⟨hlength, rfl⟩ := h
    intro b hb
    simp only [List.mem_map, List.mem_flatMap] at hb
    obtain ⟨c, ⟨⟨b', value⟩, -, hc⟩, rfl⟩ := hb
    exact Algebra.contains_placements hlength value .zero 0 [] c hc
  | slerpAt circle t =>
    obtain ⟨hfirst, hlast⟩ := List.forall_mem_cons.1 hoperands
    exact h ▸ List.forall_mem_append.2 ⟨hfirst, hlast _ List.mem_cons_self⟩
  | apply P x options =>
    obtain ⟨hP, hx⟩ := List.forall_mem_cons.1 hoperands
    exact h ▸ Sandwich.contains_surviving hP (hx x List.mem_cons_self)
  | chain ms x =>
    obtain ⟨hx, hms⟩ := List.forall_mem_cons.1 hoperands
    exact h ▸ Algebra.contains_chainBlades hms hx
  | call f args => exact h.elim
  | combine op l r => exact h.elim
  | measure op m => exact h.elim
  | compare op a b => exact h.elim
  | slerp a b => exact h.elim
  | sandwich m => exact h.elim
  | force P => exact h.elim

end Adds

section Runs

variable [Number K] [Target σ K S V] {A : Algebra K S} {m a b : Multivector K S}

theorem UnaryOperation.perform_lists (op : UnaryOperation) (hm : m.blades.Nodup) :
    (op.perform A m : Emission σ K (Multivector K S)).Returns fun r =>
      ∃ bs, op.Adds A m bs ∧ A.Lists bs r := by
  have hsigns : ∀ (operation : String) (flip : Blade → Bool),
      ((do A.annotate operation; A.resign flip m) : Emission σ K (Multivector K S)).Returns
        (A.Lists m.blades) :=
    fun _ flip => .after fun _ => Algebra.resign_lists flip
  cases op with
  | negate => exact (hsigns "negate" fun _ => true).mono fun r hr => ⟨_, rfl, hr⟩
  | gradeInvolution =>
    exact (hsigns "grade involution" fun b => isOdd b.grade).mono fun r hr => ⟨_, rfl, hr⟩
  | reverse =>
    exact (hsigns "reverse" fun b => isOdd b.reverseFlips).mono fun r hr => ⟨_, rfl, hr⟩
  | conjugate =>
    exact (hsigns "conjugate" fun b => isOdd (b.grade + b.reverseFlips)).mono
      fun r hr => ⟨_, rfl, hr⟩
  | extractGrade k =>
    exact (Algebra.extract_lists fun b => b.grade == k).mono fun r hr => ⟨_, rfl, hr⟩
  | extract blades =>
    exact (Algebra.extract_lists fun b => blades.contains b).mono fun r hr => ⟨_, rfl, hr⟩
  | inverse => exact Algebra.inverse_lists.mono fun r hr => ⟨_, rfl, hr⟩
  | normalize =>
    refine (Algebra.normalize_lists hm).mono fun r hr => ?_
    obtain hr | hr | ⟨b, hb, hr⟩ := hr
    · exact ⟨_, .inl rfl, hr⟩
    · exact ⟨_, .inr (.inl rfl), hr⟩
    · exact ⟨_, .inr (.inr ⟨b, hb, rfl⟩), hr⟩
  | dual => exact Algebra.dual_lists.mono fun r hr => ⟨_, rfl, hr⟩
  | undual => exact Algebra.undual_lists.mono fun r hr => ⟨_, rfl, hr⟩
  | exp => exact (Algebra.exp_lists hm).mono fun r hr => ⟨_, rfl, hr⟩
  | log =>
    refine Algebra.log_lists.mono fun r hr => ?_
    obtain hr | hr := hr
    · exact ⟨_, .inl rfl, hr⟩
    · exact ⟨_, .inr rfl, hr⟩

theorem BinaryOperation.perform_lists (op : BinaryOperation) (ha : a.blades.Nodup)
    (hb : b.blades.Nodup) :
    (op.perform A a b : Emission σ K (Multivector K S)).Returns fun r =>
      ∃ bs, op.Adds A a b bs ∧ A.Lists bs r := by
  cases op with
  | minus => exact Algebra.minus_lists.mono fun r hr => ⟨_, rfl, hr⟩
  | mul kind => exact (Algebra.mul_lists kind).mono fun r hr => ⟨_, rfl, hr⟩
  | sandwichProduct => exact (Algebra.sandwichProduct_lists ha hb).mono fun r hr => ⟨_, rfl, hr⟩
  | reflect =>
    refine Algebra.reflect_lists.mono fun r hr => ?_
    obtain ⟨-, -, hr | hr⟩ := hr
    · exact ⟨_, .inl rfl, hr⟩
    · exact ⟨_, .inr rfl, hr⟩

variable [Ord S]

/-- A multivector that lists the blades of an operation. -/
theorem Operation.made_lists {op : Operation K S} {c : Emission σ K (Multivector K S)}
    (h : c.Returns fun m => ∃ bs, op.Adds A bs ∧ (op.algebra A).Lists bs m) :
    (StepResult.multivector <$> c).Returns fun result =>
      ∀ m ∈ result.built, ∃ bs, op.Adds A bs ∧ (op.algebra A).Lists bs m :=
  .map h fun _ hm => List.forall_mem_singleton.2 hm

/-- **The results of an operation list the blades that it adds**, if no operand lists a blade
twice. -/
theorem Operation.run_lists (op : Operation K S) (h : ∀ m ∈ op.operands, m.blades.Nodup) :
    (op.run A : Emission σ K (StepResult K S)).Returns fun result =>
      ∀ m ∈ result.built, ∃ bs, op.Adds A bs ∧ (op.algebra A).Lists bs m := by
  -- Most operations determine the blades of their result.
  have hlists : ∀ {op : Operation K S} {bs : List Blade} {c : Emission σ K (Multivector K S)},
      op.Adds A bs → c.Returns ((op.algebra A).Lists bs) →
        (StepResult.multivector <$> c).Returns fun result =>
          ∀ m ∈ result.built, ∃ bs, op.Adds A bs ∧ (op.algebra A).Lists bs m :=
    fun hadds hc => made_lists (hc.mono fun r hr => ⟨_, hadds, hr⟩)
  cases op with
  | one => exact hlists rfl Algebra.one_lists
  | pseudoscalar => exact hlists rfl Algebra.pseudoscalar_lists
  | basisVectors =>
    refine .map Algebra.basisVectors_lists fun ms hms m hm => ?_
    obtain ⟨k, hk, rfl⟩ := List.getElem_of_mem hm
    have hrange : k < (List.range A.dimension).length := hms.length_eq ▸ hk
    have hlist := List.forall₂_iff_get.1 hms |>.2 k hrange hk
    rw [List.get_eq_getElem, List.getElem_range] at hlist
    rw [List.length_range] at hrange
    exact ⟨_, ⟨k, hrange, rfl⟩, hlist⟩
  | scalar x => exact hlists rfl (Algebra.scalar_lists x)
  | vector xs => exact hlists rfl (Algebra.vector_lists xs)
  | named components => exact hlists rfl (Algebra.ofNamed_lists components)
  | call f args => exact .map (P := fun _ => True) (fun _ _ _ => trivial) fun _ _ => nofun
  | combine op l r => exact .map (P := fun _ => True) (fun _ _ _ => trivial) fun _ _ => nofun
  | scale x m => exact hlists rfl (Algebra.scale_lists x)
  | unary op m => exact made_lists (op.perform_lists (h m List.mem_cons_self))
  | binary op a b =>
    obtain ⟨ha, hb⟩ := List.forall_mem_cons.1 h
    exact made_lists (op.perform_lists ha (hb b List.mem_cons_self))
  | measure op m => exact .map (P := fun _ => True) (fun _ _ _ => trivial) fun _ _ => nofun
  | compare op a b => exact .map (P := fun _ => True) (fun _ _ _ => trivial) fun _ _ => nofun
  | plus ms => exact hlists rfl (Algebra.plus_lists h)
  | mulAll kind ms => exact hlists rfl (Algebra.mulAll_lists kind h)
  | outermorphism m matrix =>
    exact made_lists ((Algebra.outermorphism_lists matrix).mono fun r hr => ⟨_, ⟨hr.1, rfl⟩, hr.2⟩)
  | slerp a b => exact .map (P := fun _ => True) (fun _ _ _ => trivial) fun _ _ => nofun
  | slerpAt circle t => exact hlists rfl (Algebra.slerpAt_lists circle t)
  | sandwich m => exact .map (P := fun _ => True) (fun _ _ _ => trivial) fun _ _ => nofun
  | apply P x options =>
    refine .map (Sandwich.applied_lists P x options) fun r hr => ?_
    cases r with
    | none => exact nofun
    | some m => exact List.forall_mem_singleton.2 ⟨_, rfl, hr.2 m rfl⟩
  | force P => exact .map (P := fun _ => True) (fun _ _ _ => trivial) fun _ _ => nofun
  | chain ms x => exact hlists rfl Algebra.sandwichChain_lists

/-! ### Owners -/

omit [Number K] [Ord S] [Target σ K S V] in
/-- What a computation screens for holds if it returns. -/
theorem Emission.Screens.returns {α : Type} {guard : Prop} {c : Emission σ K α} {Q : α → Prop}
    (h : c.Screens guard Q) : c.Returns fun _ => guard := by
  intro s r hr
  by_contra hguard
  obtain ⟨e, he⟩ := h.refuses hguard s
  rw [he] at hr
  cases hr

omit [Ord S] in
theorem Algebra.mulAll_owned (kind : ProductKind) (ms : List (Multivector K S)) :
    (A.mulAll kind ms : Emission σ K (Multivector K S)).Returns fun _ =>
      ∀ m ∈ ms, A.owns m = true := by
  have hfold : ∀ (rest : List (Multivector K S)) (first : Multivector K S),
      (rest.foldlM (fun product m => A.mul kind product m) first :
        Emission σ K (Multivector K S)).Returns fun _ => ∀ m ∈ rest, A.owns m = true := by
    intro rest
    induction rest with
    | nil => exact fun _ => .pure nofun
    | cons m rest ih =>
      intro first
      rw [List.foldlM_cons]
      refine .bind (mul_screens kind).returns fun product howns => (ih product).mono ?_
      exact fun _ h => List.forall_mem_cons.2 ⟨howns.2, h⟩
  cases ms with
  | nil => exact one_lists.mono fun _ _ => nofun
  | cons first rest =>
    refine .bind check_returns fun _ howner => (hfold rest first).mono fun _ h => ?_
    exact List.forall_mem_cons.2 ⟨by simpa [owns] using howner, h⟩

omit [Ord S] in
theorem UnaryOperation.perform_owned (op : UnaryOperation) :
    (op.perform A m : Emission σ K (Multivector K S)).Returns fun _ => A.owns m = true := by
  have hsigns : ∀ (operation : String) (flip : Blade → Bool),
      ((do A.annotate operation; A.resign flip m) : Emission σ K (Multivector K S)).Returns
        fun _ => A.owns m = true :=
    fun _ flip => .after fun _ => (Algebra.resign_screens flip).returns
  cases op with
  | negate => exact hsigns "negate" fun _ => true
  | gradeInvolution => exact hsigns "grade involution" fun b => isOdd b.grade
  | reverse => exact hsigns "reverse" fun b => isOdd b.reverseFlips
  | conjugate => exact hsigns "conjugate" fun b => isOdd (b.grade + b.reverseFlips)
  | extractGrade k => exact (Algebra.extract_screens fun b => b.grade == k).returns
  | extract blades => exact (Algebra.extract_screens fun b => blades.contains b).returns
  | inverse => exact Algebra.inverse_screens.returns
  | normalize => exact Algebra.normalize_screens.returns
  | dual => exact Algebra.dual_screens.returns
  | undual => exact Algebra.undual_screens.returns
  | exp => exact Algebra.exp_screens.returns
  | log => exact Algebra.log_screens.returns

omit [Ord S] in
theorem BinaryOperation.perform_owned (op : BinaryOperation) :
    (op.perform A a b : Emission σ K (Multivector K S)).Returns fun _ =>
      A.owns a = true ∧ A.owns b = true := by
  cases op with
  | minus => exact Algebra.minus_screens.returns
  | mul kind => exact (Algebra.mul_screens kind).returns
  | sandwichProduct =>
    refine .after fun reversed => (Algebra.mulAll_owned .geometric [a, b, reversed]).mono ?_
    intro _ h
    exact ⟨h a (by simp), h b (by simp)⟩
  | reflect =>
    refine Algebra.reflect_lists.mono fun _ h => ?_
    simpa [Algebra.owns] using ⟨h.1, h.2.1⟩

/-- **An operation that returns was given multivectors of its algebra**, wherever it compares
them. -/
theorem Operation.run_owned (op : Operation K S) :
    (op.run A : Emission σ K (StepResult K S)).Returns fun _ =>
      ∀ m ∈ op.checked, (op.algebra A).owns m = true := by
  have hone : ∀ {B : Algebra K S} {m : Multivector K S}, B.owns m = true →
      ∀ m' ∈ [m], B.owns m' = true := fun h => List.forall_mem_singleton.2 h
  have hpair : ∀ {a b : Multivector K S}, A.owns a = true ∧ A.owns b = true →
      ∀ m ∈ [a, b], A.owns m = true :=
    fun h => List.forall_mem_cons.2 ⟨h.1, List.forall_mem_singleton.2 h.2⟩
  cases op with
  | one => exact fun _ _ _ => nofun
  | pseudoscalar => exact fun _ _ _ => nofun
  | basisVectors => exact fun _ _ _ => nofun
  | scalar x => exact fun _ _ _ => nofun
  | vector xs => exact fun _ _ _ => nofun
  | named components => exact fun _ _ _ => nofun
  | call f args => exact fun _ _ _ => nofun
  | combine op l r => exact fun _ _ _ => nofun
  | slerpAt circle t => exact fun _ _ _ => nofun
  | force P => exact fun _ _ _ => nofun
  | scale x m => exact .map (Algebra.scale_screens x).returns fun _ => hone
  | unary op m => exact .map op.perform_owned fun _ => hone
  | binary op a b => exact .map op.perform_owned fun _ => hpair
  | measure op m =>
    cases op with
    | normSquared =>
      exact .map Algebra.normSquared_screens.returns fun _ => hone
    | norm => exact .map Algebra.norm_screens.returns fun _ => hone
  | compare op a b =>
    cases op with
    | scalarProduct => exact .map Algebra.scalarProduct_screens.returns fun _ => hpair
    | dist => exact .map Algebra.dist_screens.returns fun _ => hpair
    | angle => exact .map Algebra.angle_screens.returns fun _ => hpair
  | plus ms => exact .map (Algebra.plus_screens ms).returns fun _ => List.all_eq_true.1
  | mulAll kind ms => exact .map (Algebra.mulAll_owned kind ms) fun _ h => h
  | outermorphism m matrix =>
    exact .map (Algebra.outermorphism_screens matrix).returns
      fun _ h => hone h.1
  | slerp a b => exact .map Algebra.slerp_screens.returns fun _ => hpair
  | sandwich m => exact .map Algebra.sandwich_screens.returns fun _ => hone
  | apply P x options =>
    exact .map (P.applied_screens options).returns fun _ => hone
  | chain ms x =>
    refine .map (Algebra.sandwichChain_screens ms).returns fun _ h => ?_
    exact List.forall_mem_cons.2 ⟨h.2, List.all_eq_true.1 h.1⟩

end Runs

end Clifford

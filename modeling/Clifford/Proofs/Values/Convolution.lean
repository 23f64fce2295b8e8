import Clifford.Proofs.Blade.Flips
import Mathlib.Data.BitVec
import Mathlib.Data.Fintype.EquivFin
import Mathlib.Algebra.BigOperators.Pi
import Mathlib.Tactic.LinearCombination

/-!
# Convolutions of coefficient functions

The values of a multivector are a function from blades to a ring. A product of multivectors
multiplies every pair of blades with a factor of its own and adds the result to the symmetric
difference of the two; such a product is a convolution, and the factors are its kernel.

## Main definitions

- `Values` — the coefficients of all blades
- `Values.single`, `Values.scalar` — a single component, and that of the scalar blade
- `Values.convolve` — the product with a given kernel
- `Blade.weight` — the product of the squares of a blade's vectors
- `Blade.twist` — the kernel of the geometric product

## Main results

- `Values.convolve_convolve_left`, `Values.convolve_convolve_right` — nested products as sums
  over triples of blades
- `Values.convolve_assoc` — two nested products agree where their kernels do
- `Blade.twist_cocycle` — the kernel of the geometric product is a cocycle
-/

namespace Clifford

open Finset

/-- There are finitely many blades. The instance does not list them. -/
noncomputable instance Blade.fintype : Fintype Blade :=
  have : Finite Blade := Finite.of_equiv _ BitVec.equivFin.toEquiv.symm
  Fintype.ofFinite Blade

/-- The coefficients of all blades. -/
abbrev Values (R : Type*) := Blade → R

namespace Values

variable {R : Type*} [CommRing R]

/-- The coefficients of a multivector with a single component. -/
def single (b : Blade) (x : R) : Values R := fun c => if b = c then x else 0

/-- The coefficients of a scalar. -/
def scalar (x : R) : Values R := single 0 x

@[simp] theorem single_self (b : Blade) (x : R) : single b x b = x := if_pos rfl

theorem single_of_ne {b c : Blade} (x : R) (h : b ≠ c) : single b x c = 0 := if_neg h

theorem sum_single (f : Values R) : ∑ b, single b (f b) = f := by
  funext c
  simp only [Finset.sum_apply, single, sum_ite_eq', mem_univ, if_true]

@[simp] theorem single_zero (b : Blade) : single b (0 : R) = 0 := by
  funext c
  by_cases h : b = c
  · subst h
    rw [single_self]
    rfl
  · rw [single_of_ne _ h]
    rfl

theorem single_add (b : Blade) (x y : R) : single b (x + y) = single b x + single b y := by
  funext c
  by_cases h : b = c
  · subst h
    rw [Pi.add_apply, single_self, single_self, single_self]
  · rw [Pi.add_apply, single_of_ne _ h, single_of_ne _ h, single_of_ne _ h, add_zero]

/-- The product that multiplies the blades `a` and `b` with the factor `k a b`. -/
noncomputable def convolve (k : Blade → Blade → R) (f g : Values R) : Values R := fun c =>
  ∑ a, ∑ b, if a ^^^ b = c then k a b * (f a * g b) else 0

/-- Only equal blades meet in the scalar part of a product. -/
theorem convolve_apply_zero (k : Blade → Blade → R) (f g : Values R) :
    convolve k f g 0 = ∑ a, k a a * (f a * g a) := by
  refine sum_congr rfl fun a _ => ?_
  rw [Fintype.sum_eq_single a]
  · exact if_pos BitVec.xor_self
  · intro b hb
    refine if_neg fun hxor => hb ?_
    exact (BitVec.xor_eq_zero_iff.1 hxor).symm

theorem sum_convolve_mul (k : Blade → Blade → R) (f g : Values R) (w : Blade → R) :
    ∑ c, convolve k f g c * w c = ∑ a, ∑ b, k a b * (f a * g b) * w (a ^^^ b) := by
  simp only [convolve, sum_mul]
  rw [sum_comm]
  refine sum_congr rfl fun a _ => ?_
  rw [sum_comm]
  refine sum_congr rfl fun b _ => ?_
  simp only [ite_mul, zero_mul, sum_ite_eq, mem_univ, if_true]

theorem convolve_eq_sum_single (k : Blade → Blade → R) (f g : Values R) :
    convolve k f g = ∑ a, ∑ b, single (a ^^^ b) (k a b * (f a * g b)) := by
  funext c
  rw [Finset.sum_apply]
  refine sum_congr rfl fun a _ => ?_
  rw [Finset.sum_apply]
  rfl

/-- A product of a product with a third factor, as a sum over triples of blades. -/
theorem convolve_convolve_left (k₁ k₂ : Blade → Blade → R) (f g h : Values R) (d : Blade) :
    convolve k₂ (convolve k₁ f g) h d =
      ∑ a, ∑ b, ∑ c, if a ^^^ b ^^^ c = d then
        k₁ a b * k₂ (a ^^^ b) c * (f a * g b * h c) else 0 := by
  -- What the second product makes of a coefficient of the first one at `x`.
  let w : Blade → R := fun x => ∑ c, if x ^^^ c = d then k₂ x c * h c else 0
  have houter : convolve k₂ (convolve k₁ f g) h d = ∑ x, convolve k₁ f g x * w x := by
    rw [convolve]
    refine sum_congr rfl fun x _ => ?_
    rw [mul_sum]
    refine sum_congr rfl fun c _ => ?_
    rw [mul_ite, mul_zero]
    congr 1
    ring
  rw [houter, sum_convolve_mul]
  refine sum_congr rfl fun a _ => sum_congr rfl fun b _ => ?_
  rw [mul_sum]
  refine sum_congr rfl fun c _ => ?_
  rw [mul_ite, mul_zero]
  congr 1
  ring

/-- A product of a factor with a product, as a sum over triples of blades. -/
theorem convolve_convolve_right (k₁ k₂ : Blade → Blade → R) (f g h : Values R) (d : Blade) :
    convolve k₂ f (convolve k₁ g h) d =
      ∑ a, ∑ b, ∑ c, if a ^^^ b ^^^ c = d then
        k₁ b c * k₂ a (b ^^^ c) * (f a * g b * h c) else 0 := by
  rw [convolve]
  refine sum_congr rfl fun a _ => ?_
  let w : Blade → R := fun x => if a ^^^ x = d then k₂ a x * f a else 0
  have houter : (∑ x, if a ^^^ x = d then k₂ a x * (f a * convolve k₁ g h x) else 0) =
      ∑ x, convolve k₁ g h x * w x := by
    refine sum_congr rfl fun x _ => ?_
    rw [mul_ite, mul_zero]
    congr 1
    ring
  rw [houter, sum_convolve_mul]
  refine sum_congr rfl fun b _ => sum_congr rfl fun c _ => ?_
  rw [mul_ite, mul_zero, ← BitVec.xor_assoc]
  congr 1
  ring

/-- **Nested products agree where their kernels do.** -/
theorem convolve_assoc {k₁ k₂ k₃ k₄ : Blade → Blade → R}
    (hk : ∀ a b c, k₁ a b * k₂ (a ^^^ b) c = k₃ b c * k₄ a (b ^^^ c)) (f g h : Values R) :
    convolve k₂ (convolve k₁ f g) h = convolve k₄ f (convolve k₃ g h) := by
  funext d
  rw [convolve_convolve_left, convolve_convolve_right]
  refine sum_congr rfl fun a _ => sum_congr rfl fun b _ => sum_congr rfl fun c _ => ?_
  rw [hk]

theorem convolve_single_left (k : Blade → Blade → R) (a : Blade) (x : R) (g : Values R) :
    convolve k (single a x) g = ∑ b, single (a ^^^ b) (k a b * (x * g b)) := by
  funext c
  rw [convolve, Finset.sum_apply]
  have hrow : ∀ l, l ≠ a →
      (∑ b, if l ^^^ b = c then k l b * (single a x l * g b) else 0) = 0 := by
    intro l hl
    refine sum_eq_zero fun b _ => ?_
    rw [single_of_ne x (Ne.symm hl), zero_mul, mul_zero, ite_self]
  rw [Fintype.sum_eq_single a hrow, single_self]
  rfl

theorem convolve_add_left (k : Blade → Blade → R) (f f' g : Values R) :
    convolve k (f + f') g = convolve k f g + convolve k f' g := by
  funext c
  simp only [convolve, Pi.add_apply, ← sum_add_distrib]
  refine sum_congr rfl fun a _ => sum_congr rfl fun b _ => ?_
  split
  · ring
  · rw [add_zero]

theorem one_convolve {k : Blade → Blade → R} (hk : ∀ b, k 0 b = 1) (g : Values R) :
    convolve k (scalar 1) g = g := by
  rw [scalar, convolve_single_left]
  simp only [hk, one_mul]
  have hxor : ∀ b : Blade, 0 ^^^ b = b := fun b => BitVec.zero_xor
  simp only [hxor, sum_single]

theorem convolve_one {k : Blade → Blade → R} (hk : ∀ a, k a 0 = 1) (f : Values R) :
    convolve k f (scalar 1) = f := by
  funext c
  rw [convolve]
  have hcolumn : ∀ a, (∑ b, if a ^^^ b = c then k a b * (f a * scalar 1 b) else 0) =
      if a = c then f a else 0 := by
    intro a
    rw [Fintype.sum_eq_single 0]
    · have hxor : a ^^^ 0 = a := BitVec.xor_zero
      rw [hxor, scalar, single_self, hk, one_mul, mul_one]
    · intro b hb
      rw [scalar, single_of_ne 1 (Ne.symm hb), mul_zero, mul_zero, ite_self]
  simp only [hcolumn, sum_ite_eq', mem_univ, if_true]

end Values

namespace Blade

variable {R : Type*} [CommRing R]

/-- The product of the squares of a blade's vectors. -/
def weight (m : Nat → R) (b : Blade) : R := ∏ i ∈ range 32, if b.getLsbD i then m i else 1

theorem weight_zero (m : Nat → R) : weight m 0 = 1 := by
  simp [weight]

theorem weight_eq_prod_positions (m : Nat → R) (b : Blade) :
    weight m b = (b.positions.map m).prod := by
  rw [weight, positions_eq_filter, ← prod_filter, ← List.prod_toFinset m
    (List.nodup_range.filter _), List.toFinset_filter, List.toFinset_range]

/-- Two pairs of blades weigh the same if they have every vector equally often. -/
theorem weight_mul_weight_congr (m : Nat → R) {a b c d : Blade}
    (h : ∀ i, (a.getLsbD i).toNat + (b.getLsbD i).toNat =
      (c.getLsbD i).toNat + (d.getLsbD i).toNat) :
    weight m a * weight m b = weight m c * weight m d := by
  simp only [weight, ← prod_mul_distrib]
  refine prod_congr rfl fun i _ => ?_
  have hi := h i
  revert hi
  cases a.getLsbD i <;> cases b.getLsbD i <;> cases c.getLsbD i <;> cases d.getLsbD i <;> simp

/-- The vectors that are dropped on the way from three blades to their product are the same in
whatever order the blades are multiplied. -/
theorem weight_mul_weight (m : Nat → R) (a b c : Blade) :
    weight m (a &&& b) * weight m ((a ^^^ b) &&& c) =
      weight m (b &&& c) * weight m (a &&& (b ^^^ c)) := by
  -- A vector is dropped once if two or three of the blades have it, and else not.
  refine weight_mul_weight_congr m fun i => ?_
  simp only [BitVec.getLsbD_and, BitVec.getLsbD_xor]
  cases a.getLsbD i <;> cases b.getLsbD i <;> cases c.getLsbD i <;> rfl

theorem weight_mul_weight_outer (m : Nat → R) (a b c : Blade) :
    weight m (a &&& b) * weight m ((a ^^^ b) &&& c) =
      weight m (a &&& c) * weight m ((a ^^^ c) &&& b) := by
  refine weight_mul_weight_congr m fun i => ?_
  simp only [BitVec.getLsbD_and, BitVec.getLsbD_xor]
  cases a.getLsbD i <;> cases b.getLsbD i <;> cases c.getLsbD i <;> rfl

/-- The factor of two blades in the geometric product: the sign of sorting them, and the squares
of the vectors that they share. -/
def twist (m : Nat → R) (a b : Blade) : R := swapSign R a b * weight m (a &&& b)

/-- **The kernel of the geometric product is a cocycle.** -/
theorem twist_cocycle (m : Nat → R) (a b c : Blade) :
    twist m a b * twist m (a ^^^ b) c = twist m b c * twist m a (b ^^^ c) := by
  have hweight := weight_mul_weight m a b c
  simp only [twist, swapSign_xor_left, swapSign_xor_right]
  linear_combination swapSign R a b * swapSign R a c * swapSign R b c * hweight

theorem twist_zero_left (m : Nat → R) (b : Blade) : twist m 0 b = 1 := by
  have hand : (0 : Blade) &&& b = 0 := BitVec.zero_and
  rw [twist, hand, swapSign_zero_left, weight_zero, one_mul]

theorem twist_zero_right (m : Nat → R) (a : Blade) : twist m a 0 = 1 := by
  have hand : a &&& (0 : Blade) = 0 := BitVec.and_zero
  rw [twist, hand, swapSign_zero_right, weight_zero, one_mul]

end Blade

end Clifford

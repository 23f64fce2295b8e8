import Clifford.Number.Double
import Mathlib

/-!
# Laws of floating-point numbers

Floating point satisfies hardly any law of arithmetic, but it treats both signs alike: a sign is a
bit of its own, which rounding does not look at. So the sign of a factor can be taken out of a
product, negating twice changes nothing, and a finite number and its negation cancel. The places of
the representations are all different, so sorting numbers by their place puts them into one order.

## Main definitions

- `SignedNumber` — the laws of signs and of the order of coefficients
- `Double.unpacked`, `Double.packed` — the parts of a number, and the number with some parts

## Main results

- `Double.unpacked_neg` — negating changes the sign and nothing else
- `Double.neg_mul`, `Double.neg_neg`, `Double.add_neg_of_isFinite` — laws of signs
- `Double.orderKey_injective` — no two numbers have one place
-/

namespace Clifford

/-- Numbers whose signs can be taken out of products, and whose coefficients are totally ordered. No
law is asked of sums, and none of products of several numbers. -/
class SignedNumber (K : Type) [Number K] : Prop where
  /-- A sign can be taken out of a product. -/
  neg_mul (x y : K) : -x * y = -(x * y)
  /-- Two signs cancel. -/
  neg_neg (x : K) : - -x = x
  /-- Any two numbers can be compared. -/
  precedes_total (x y : K) : Number.precedes x y = true ∨ Number.precedes y x = true
  /-- The order is transitive. -/
  precedes_trans {x y z : K} : Number.precedes x y = true → Number.precedes y z = true →
    Number.precedes x z = true
  /-- No two numbers have the same place. -/
  precedes_antisymm {x y : K} : Number.precedes x y = true → Number.precedes y x = true → x = y

namespace Double

open Float.Model Float.Model.UnpackedFloat

/-! ### Signs of unpacked numbers -/

theorem sign_neg_neg (s : Sign) : - -s = s := by
  cases s <;> rfl

theorem sign_neg_mul (s s' : Sign) : -s * s' = -(s * s') := by
  cases s <;> cases s' <;> rfl

theorem unpacked_neg_neg (u : UnpackedFloat) : u.neg.neg = u := by
  cases u with
  | notANumber => rfl
  | infinity s | zero s | finite s => simp [UnpackedFloat.neg, sign_neg_neg]

/-- Rounding does not look at the sign. -/
theorem roundWithAccuracy_neg (spec : Format) (s : Sign) (mantissa : Nat) (exponent : Int)
    (accuracy : Accuracy) : roundWithAccuracy spec (-s) mantissa exponent accuracy =
      (roundWithAccuracy spec s mantissa exponent accuracy).neg := by
  unfold roundWithAccuracy
  dsimp only
  split <;> rfl

theorem neg_mul_unpacked (spec : Format) (u v : UnpackedFloat) :
    UnpackedFloat.mul spec u.neg v = (UnpackedFloat.mul spec u v).neg := by
  cases u <;> cases v <;>
    simp only [UnpackedFloat.neg, UnpackedFloat.mul, sign_neg_mul, roundWithAccuracy_neg]

/-- Opposite numbers of the same size add up to zero. -/
theorem add_neg_unpacked (spec : Format) {u : UnpackedFloat} (h : u.isFinite = true) :
    UnpackedFloat.add spec u u.neg = .zero .positive := by
  cases u with
  | notANumber | infinity s => cases h
  | zero s => cases s <;> rfl
  | finite s mantissa exponent hpos =>
    have hsum : ∀ n : Int, s.apply n + (-s).apply n = 0 := by
      intro n
      cases s with
      | negative => exact Int.add_left_neg n
      | positive => exact Int.add_right_neg n
    simp only [UnpackedFloat.neg, UnpackedFloat.add, hsum, UnpackedFloat.normalize]
    rfl

/-! ### Packing -/

/-- The sign is a bit of its own. -/
theorem unpack_packComponents_neg (spec : Format) (s : Sign) (exponent : BitVec spec.exponentBits)
    (mantissa : BitVec spec.mantissaBitsWithoutImplicit) :
    unpack spec (packComponents spec (-s) exponent mantissa) =
      (unpack spec (packComponents spec s exponent mantissa)).neg := by
  unfold UnpackedFloat.unpack
  simp only [unpackMantissa_packComponents, unpackExponent_packComponents,
    unpackSign_packComponents, Sign.ofBitVec_toBitVec]
  split_ifs <;> rfl

/-- Packing looks at the sign for this bit only. -/
theorem unpack_pack_neg (spec : Format) (u : UnpackedFloat) :
    unpack spec (UnpackedFloat.pack spec u.neg) =
      (unpack spec (UnpackedFloat.pack spec u)).neg := by
  cases u with
  | notANumber =>
    show unpack spec (packedNaN spec) = (unpack spec (packedNaN spec)).neg
    rw [unpack_packedNaN]
    rfl
  | infinity s | zero s => exact unpack_packComponents_neg spec s _ _
  | finite s mantissa exponent hpos =>
    simp only [UnpackedFloat.neg, UnpackedFloat.pack]
    split_ifs <;> exact unpack_packComponents_neg spec s _ _

/-- The parts of a number. -/
def unpacked (x : Float) : UnpackedFloat := x.toModel.unpack

/-- The number with some parts, which are rounded already. -/
def packed (u : UnpackedFloat) : Float := .ofModel (Float.Model.pack u)

theorem packed_unpacked (x : Float) : packed (unpacked x) = x := Float.ofBits_toBits x

theorem unpacked_packed_neg (u : UnpackedFloat) :
    unpacked (packed u.neg) = (unpacked (packed u)).neg :=
  unpack_pack_neg Format.binary64 u

/-! ### Laws of signs -/

variable (x y : Float)

/-- **Negating changes the sign and nothing else.** -/
theorem unpacked_neg : unpacked (-x) = (unpacked x).neg := by
  have hneg : -x = packed (unpacked x).neg := rfl
  rw [hneg, unpacked_packed_neg, packed_unpacked]

theorem neg_packed (u : UnpackedFloat) : -packed u = packed u.neg := by
  rw [← packed_unpacked (-packed u), unpacked_neg, ← unpacked_packed_neg, packed_unpacked]

theorem neg_neg : - -x = x := by
  rw [← packed_unpacked x, neg_packed, neg_packed, unpacked_neg_neg]

/-- A product with a negation is the negation of the product: both are rounded alike. -/
theorem neg_mul : -x * y = -(x * y) := by
  have hmul : ∀ x y : Float,
      x * y = packed (UnpackedFloat.mul Format.binary64 (unpacked x) (unpacked y)) :=
    fun _ _ => rfl
  rw [hmul, hmul, unpacked_neg, neg_mul_unpacked, neg_packed]

/-- A finite number and its negation add up to zero. -/
theorem add_neg_of_isFinite {x : Float} (h : x.isFinite = true) : x + -x = 0 := by
  have hadd : x + -x =
      packed (UnpackedFloat.add Format.binary64 (unpacked x) (unpacked (-x))) := rfl
  have hfinite : (unpacked x).isFinite = true := h
  rw [hadd, unpacked_neg, add_neg_unpacked _ hfinite]
  decide +kernel

/-! ### Places -/

theorem toNat_orderKey : (orderKey x).toNat =
    if x.toBits.toNat < 2 ^ 63 then 2 ^ 63 + x.toBits.toNat else 2 ^ 64 - 1 - x.toBits.toNat := by
  have hiff : x.toBits < signBit ↔ x.toBits.toNat < 2 ^ 63 := UInt64.lt_iff_toNat_lt
  rw [orderKey]
  by_cases hlt : x.toBits.toNat < 2 ^ 63
  · have hset := Nat.two_pow_add_eq_or_of_lt hlt 1
    rw [Nat.mul_one] at hset
    rw [if_pos (hiff.2 hlt), if_pos hlt, UInt64.toNat_or, hset, Nat.or_comm]
    rfl
  · rw [if_neg (mt hiff.1 hlt), if_neg hlt, UInt64.toNat_not]
    rfl

/-- **No two numbers have one place.** -/
theorem orderKey_injective : Function.Injective orderKey := by
  intro x y h
  have hx := toNat_orderKey x
  have hy := toNat_orderKey y
  rw [h] at hx
  have hlt := x.toBits.toNat_lt
  have hlt' := y.toBits.toNat_lt
  refine Float.toBits_inj.1 (UInt64.toNat_inj.1 ?_)
  split_ifs at hx hy <;> omega

end Double

instance : SignedNumber Float where
  neg_mul := Double.neg_mul
  neg_neg := Double.neg_neg
  precedes_total x y := by
    have htotal := UInt64.le_total (Double.orderKey x) (Double.orderKey y)
    exact htotal.imp decide_eq_true decide_eq_true
  precedes_trans h h' :=
    decide_eq_true (UInt64.le_trans (of_decide_eq_true h) (of_decide_eq_true h'))
  precedes_antisymm h h' :=
    Double.orderKey_injective (UInt64.le_antisymm (of_decide_eq_true h) (of_decide_eq_true h'))

end Clifford

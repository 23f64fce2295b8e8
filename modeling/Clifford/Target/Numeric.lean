import Clifford.Target

/-!
# The numeric target

The target for computations whose inputs are all known. It has no symbols, so every factor is a
number and none of the calls that create a symbol can be made.

## Main definitions

- `NumericTarget` — the state, which holds nothing
-/

namespace Clifford

/-- The state of the numeric target. -/
inductive NumericTarget (K : Type) where
  /-- The only state. -/
  | idle

instance (K : Type) : Target (NumericTarget K) K Empty Empty where
  makeVar h := (h.elim nofun : False).elim
  emitTerm v := v.elim
  finishVar v := v.elim
  applyFunction h := (h.elim nofun : False).elim
  applyOperator h := (h.elim nofun : False).elim
  space := pure ()
  comment _ := pure ()

end Clifford

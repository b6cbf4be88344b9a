import Mathlib.Algebra.Order.Ring.Defs

/-!
# Strictly ordered rings

Where the order of a ring is strict, what else is known of it follows from that, and need not be
looked for among all the ways to be ordered.
-/

namespace CrossMachine.Lib.StrictOrder

variable {R : Type*} [Semiring R] [PartialOrder R] [IsStrictOrderedRing R]

scoped instance (priority := 2000) isOrderedRing : IsOrderedRing R :=
  IsStrictOrderedRing.toIsOrderedRing

scoped instance (priority := 2000) isOrderedAddMonoid : IsOrderedAddMonoid R :=
  IsOrderedRing.toIsOrderedAddMonoid

scoped instance (priority := 2000) zeroLEOneClass : ZeroLEOneClass R :=
  IsOrderedRing.toZeroLEOneClass

end CrossMachine.Lib.StrictOrder

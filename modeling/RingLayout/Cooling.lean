import RingLayout.Scalar

/-! # Cooling

Displacements are scaled by a temperature that falls from 0.3 to 0.04 as the cycles of 100
iterations go by. A simulation has settled when its bodies hardly move or move as much as a cycle
before.
-/

namespace RingLayout

open Scalar

/-- The cooling schedule of a simulation. -/
structure Cooling (K : Type) where
  factor : K
  cycle : K
  maxCycle : K

namespace Cooling

variable {K : Type} [Scalar K]

def period : Nat := 100

def initialFactor : K := 0.3

def finalFactor : K := 0.04

@[specialize] def start (maxCycle : K) : Cooling K := ⟨initialFactor, 0.0, maxCycle⟩

/-- One more cycle: the temperature has fallen by a power of the cycles such that the last
expected cycle ends at the final one. -/
@[specialize] def advance (c : Cooling K) : Cooling K :=
  let cycle := c.cycle + 1.0
  let exponent := ln (100.0 * (initialFactor - finalFactor)) / maxNum (ln c.maxCycle) 1e-9
  { c with
    cycle := cycle
    factor := maxNum (initialFactor - pow cycle exponent / 100.0) finalFactor }

/-- Whether a simulation has settled after some of its allowed iterations, by the total
displacements of the last iteration and of the one a cycle before. -/
@[specialize] def settled (iteration allowed : Nat) (threshold last previous : K) : Bool :=
  decide (last < threshold) ||
    decide (allowed / 3 < iteration) && decide (Scalar.abs (last - previous) < 2.0)

end Cooling

end RingLayout

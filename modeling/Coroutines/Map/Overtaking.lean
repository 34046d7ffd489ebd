import Coroutines.Map.Multilookup
import Coroutines.Throttler.Turns

/-!
# How far interleaved lookups get out of order

`Map::interleaved_multilookup` writes the results in the order in which the lookups complete. A
lookup suspends at every entry it reads, so how far it falls behind the others is bounded by the
length of its bucket; how far it gets ahead of them, by the number of streams.
-/

namespace Coroutines.Map

open Loop Throttler RoundRobin Links

variable {K V : Type} [DecidableEq K] {hasher : K → Size} {m : Map K V}

/-! ## The turns of a lookup -/

end Coroutines.Map

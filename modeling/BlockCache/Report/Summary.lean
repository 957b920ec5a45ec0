import BlockCache.Report.Counters
import BlockCache.Report.Occupancy

/-!
# Summary — the statistics of a cache at one moment
-/

namespace BlockCache

structure Summary where
  counters : Counters
  /-- Present only in a cache configured for detailed statistics. -/
  occupancy : Option Occupancy := none
  deriving DecidableEq, Repr

namespace Summary

def lookups (s : Summary) : Except Fault Nat :=
  Word.checked (s.counters.hits + s.counters.misses)

/-- The share of lookups that hit, zero before the first one. -/
def hitRate (s : Summary) : Except Fault Float := do
  return ratio s.counters.hits (← s.lookups)

end Summary
end BlockCache

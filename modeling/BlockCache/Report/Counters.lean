import BlockCache.Memory.Word
import BlockCache.Text.Record

/-!
# Counters — lookups and evictions

Every lookup is a hit or a miss; every eviction is counted once. Each counter is a machine word, and
a count that would leave it is a fault.
-/

namespace BlockCache

structure Counters where
  hits : Nat := 0
  misses : Nat := 0
  evictions : Nat := 0
  deriving DecidableEq, Repr

namespace Counters

def hit (c : Counters) : Except Fault Counters := do
  return { c with hits := ← Word.checked (c.hits + 1) }

def miss (c : Counters) : Except Fault Counters := do
  return { c with misses := ← Word.checked (c.misses + 1) }

def evict (c : Counters) : Except Fault Counters := do
  return { c with evictions := ← Word.checked (c.evictions + 1) }

def reset (_ : Counters) : Counters :=
  {}

def text (c : Counters) : String :=
  Text.record "StatsCounters" [
    ("hits", toString c.hits),
    ("misses", toString c.misses),
    ("evictions", toString c.evictions)]

end Counters
end BlockCache

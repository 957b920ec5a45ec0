import BlockCache.Config

/-!
# Layout — where the regions of a budget lie

A budget of bytes is cut into a header, one head per bin and one for the spare entries, the
entries, and the store; what is left is less than a granule.
-/

namespace BlockCache

structure Layout where
  totalLength : Nat
  entryCount : Nat
  binCount : Nat
  binsOffset : Nat
  entriesOffset : Nat
  storeOffset : Nat
  /-- Bytes in the store. No item is longer. -/
  storeLength : Nat
  deriving DecidableEq, Repr

namespace Layout

/-- The offset just past the store. -/
def stop (l : Layout) : Nat :=
  l.storeOffset + l.storeLength

/-- The largest power of two that is at most the number of bins aimed for, and at least one. -/
def binsFor (entries chainLength : Nat) : Nat :=
  Nat.pow 2 (max 1 (entries / chainLength)).log2

/-- `n`, if a word holds it. -/
def word (total n : Nat) : Except CacheError Nat :=
  match Word.fits? n with
  | some m => .ok m
  | none => .error (.badArgument (.layoutOverflow total))

/-- `n` moved up to an aligned offset, if a word holds that. -/
def align (total n unit : Nat) : Except CacheError Nat :=
  match Word.roundUp? n unit with
  | some m => .ok m
  | none => .error (.badArgument (.layoutOverflow total))

def plan (total : Nat) (config : Config) : Except CacheError Layout := do
  config.validate
  if total < minTotalLength then
    throw (.badArgument (.budgetTooSmall total))
  let share ← word total (total / Footprint.entry * config.entryPercentage)
  let entries := share / 100
  if entries < 1 then
    throw (.badArgument (.noEntries total))
  let bins := binsFor entries config.chainLength
  let binsOffset ← align total Footprint.header Footprint.headAlignment
  let entriesOffset ←
    align total (binsOffset + (bins + 1) * Footprint.head) Footprint.entryAlignment
  let storeOffset ←
    align total (entriesOffset + entries * Footprint.entry) Footprint.extentAlignment
  let available := total - storeOffset
  let storeLength := available - available % granule
  if storeLength = 0 then
    throw (.badArgument (.noStore entries bins storeOffset total))
  return {
    totalLength := total
    entryCount := entries
    binCount := bins
    binsOffset := binsOffset
    entriesOffset := entriesOffset
    storeOffset := storeOffset
    storeLength := storeLength }

def text (l : Layout) : String :=
  Text.record "Layout" [
    ("total_length", toString l.totalLength),
    ("nentries", toString l.entryCount),
    ("nbins", toString l.binCount),
    ("bins_offset", toString l.binsOffset),
    ("entries_offset", toString l.entriesOffset),
    ("store_offset", toString l.storeOffset),
    ("store_length", toString l.storeLength)]

end Layout
end BlockCache

import BlockCache.Catalog
import BlockCache.Layout
import BlockCache.Memory.Region
import BlockCache.Report.Summary

/-!
# Cache — items by key inside one byte budget

A cache is planned once and never grows. Its catalog says which item lies where; its store holds
the bytes. The clock counts the puts and hits since the cache was last empty.
-/

namespace BlockCache

structure Cache where
  config : Config
  layout : Layout
  time : Nat
  len : Nat
  catalog : Catalog
  store : Region
  counters : Counters

/-- What an operation answers, the cache it leaves, and what it reports, in order. -/
structure Outcome (α : Type) where
  answer : α
  cache : Cache
  events : List Event := []

/-- A fault, and what is still known of the cache it struck. The rest is lost, since a part of it
may be changed halfway. -/
structure Interruption where
  fault : Fault
  /-- Whether the cache had a store of its own. -/
  owned : Bool
  /-- Items that the completed steps have left. -/
  len : Nat
  deriving DecidableEq, Repr

namespace Cache

@[inline]
def owned (c : Cache) : Bool :=
  c.store.owned

/-! ## Faults -/

@[inline]
def interruption (c : Cache) (fault : Fault) : Interruption :=
  ⟨fault, c.owned, c.len⟩

/-- A step on some part of `c`. The step may change that part in place, as a fault in it keeps
nothing of `c` but two figures. -/
@[inline]
def during {α : Type} (c : Cache) (step : Except Fault α) : Except Interruption α :=
  match step with
  | .ok a => .ok a
  | .error fault => .error (c.interruption fault)

/-! ## Parts -/

@[inline]
def withDirectory (c : Cache) (directory : Directory) : Cache :=
  { c with catalog := { c.catalog with directory := directory } }

@[inline]
def withFree (c : Cache) (free : FreeList) : Cache :=
  { c with catalog := { c.catalog with free := free } }

/-! ## Creation -/

def assemble (config : Config) (layout : Layout) (store : Region) : Except Failure Cache := do
  let catalog ← Catalog.create layout.entryCount layout.binCount layout.storeLength
  return {
    config := config
    layout := layout
    time := 0
    len := 0
    catalog := catalog
    store := store
    counters := {} }

/-- A cache with a store of its own, within a budget of `total` bytes. -/
def create (config : Config) (total : Nat) : Except Failure Cache := do
  let layout ← (Layout.plan total config).mapError .error
  let store ← (Region.allocate layout.storeLength).mapError .error
  assemble config layout store

/-- A cache whose store is a part of `block`. The budget is the size of the block. -/
def construct (config : Config) (block : ByteArray) : Except Failure Cache := do
  if block.size = 0 then throw (.error (.nullArgument "block"))
  let layout ← (Layout.plan block.size config).mapError .error
  let store ← (Region.borrow block layout.storeOffset layout.stop).mapError .fault
  assemble config layout store

/-! ## Beginning and end of its life -/

def creationEvents (c : Cache) : List Event :=
  [.constructed c.layout.totalLength c.layout.entryCount c.layout.binCount c.layout.storeOffset
    c.layout.storeLength c.owned]

/-- A cache that ends gives a borrowed block back as its memory. -/
def destructionEvents (c : Cache) : List Event :=
  [.destroyed c.owned c.len]

/-- The length of the longest item that the cache can hold. -/
def maxLength (c : Cache) : Nat :=
  c.layout.storeLength

def isEmpty (c : Cache) : Bool :=
  c.len == 0

/-! ## Clock -/

/-- The time of a put or hit, and the cache with its clock set to the next time. -/
def tick (c : Cache) : Except Interruption (Nat × Cache) := do
  let next ← c.during (Word.checked (c.time + 1))
  return (c.time, { c with time := next })

end Cache

/-- The report of the end of a cache that a fault has struck. -/
def Interruption.destructionEvents (i : Interruption) : List Event :=
  [.destroyed i.owned i.len]

end BlockCache

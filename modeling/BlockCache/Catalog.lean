import BlockCache.Directory.Links
import BlockCache.Directory.Victim
import BlockCache.Event
import BlockCache.Space.FreeList

/-!
# Catalog — the directory together with the free space

Every entry on a bin's chain reserves an extent of the store; the rest of the store is free. The
operations here change both sides at once: an entry leaves its bin and its extent becomes free.
-/

namespace BlockCache

structure Catalog where
  directory : Directory
  free : FreeList
  deriving DecidableEq, Repr

namespace Catalog

def create (entries bins storeLength : Nat) : Except Failure Catalog := do
  let directory ← Directory.create entries bins
  let free ← (FreeList.create storeLength).mapError .error
  return ⟨directory, free⟩

def clear (k : Catalog) : Catalog :=
  ⟨k.directory.clear, k.free.reset⟩

/-! ## Linking and dropping -/

/-- Fills the entry `id` and links it at the tail of the bin of its key. -/
def link (k : Catalog) (id : Nat) (e : Entry) : Except Fault Catalog := do
  let d ← k.directory.adjust id fun _ => e
  let d ← d.append (d.binOf e.key) id
  return { k with directory := d }

/-- Makes an entry spare that sits at `place`, and frees its extent. -/
def drop (k : Catalog) (place : Place) : Except Fault Catalog := do
  let e ← k.directory.entry place.id
  let d ← k.directory.unlink place.bin place.prev place.id
  let d ← d.retire place.id
  return ⟨d, ← k.free.giveBack e.extent⟩

/-! ## Eviction -/

/-- Drops the oldest bin head, if any bin is occupied. -/
def evict (k : Catalog) : Except Fault (Option Eviction × Catalog) := do
  match ← k.directory.victim with
  | none => return (none, k)
  | some v =>
      let e ← k.directory.entry v.id
      let k ← k.drop ⟨v.bin, none, v.id⟩
      return (some ⟨v.id, v.bin, e.key, e.offset, e.length, e.time⟩, k)

end Catalog
end BlockCache

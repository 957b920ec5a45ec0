import BlockCache.Cache.Basic

/-!
# Audit — do the parts of a cache agree?

The audit checks the free list, follows every chain once, and lays the extents of the items and
the free blocks side by side. It reports the first violation it meets. It is written for damaged
caches: a chain may be endless or lead to no entry.
-/

namespace BlockCache
namespace Cache

/-- What ends an audit early. -/
inductive Stop
  | fault (f : Fault)
  | violation (v : Violation)
  deriving DecidableEq, Repr

/-- What the audit has met on the chains so far. -/
structure Survey where
  /-- Whether an entry has been met, for each entry. -/
  seen : Array Bool
  /-- Items on the chain that is being followed, the latest first. -/
  here : List Entry := []
  /-- Items on the chains before it. -/
  before : List Entry := []
  deriving DecidableEq, Repr

def Survey.items (s : Survey) : List Entry :=
  s.here ++ s.before

/-! ## Chains -/

/-- An item in the wrong bin is reported before its key is compared, so two items with one key can
only be met on one chain. -/
def surveyItem (c : Cache) (chain : Nat) (s : Survey) (e : Entry) : Except Violation Survey :=
  let home := c.catalog.directory.binOf e.key
  if home ≠ chain then
    .error (.wrongBin e.key chain home)
  else if s.here.any (·.key == e.key) then
    .error (.cachedTwice e.key)
  else if e.length = 0 ∨ e.length % granule ≠ 0 ∨ e.length < e.dataLength ∨ e.dataLength = 0 then
    .error (.lengths e.key e.dataLength e.length)
  else
    .ok { s with here := e :: s.here }

def surveyEntry (c : Cache) (chain : Nat) (s : Survey) (id : Nat) : Except Stop Survey :=
  if s.seen[id]? = some true then
    .error (.violation (.reachedTwice id))
  else
    let s := { s with seen := s.seen.setIfInBounds id true }
    if chain = c.layout.binCount then
      .ok s
    else
      match c.catalog.directory.entry id with
      | .error f => .error (.fault f)
      | .ok e => (c.surveyItem chain s e).mapError .violation

def surveyChain (c : Cache) (s : Survey) (chain : Nat) : Except Stop Survey :=
  match c.catalog.directory.trail chain with
  | .error f => .error (.fault f)
  | .ok trail => do
      let s ← trail.ids.foldlM (c.surveyEntry chain) ⟨s.seen, [], s.items⟩
      if trail.lost then throw (.fault .noElement)
      return s

/-- Follows the chain of every bin and then the spare chain. -/
def survey (c : Cache) : Except Stop Survey :=
  (List.range (c.layout.binCount + 1)).foldlM c.surveyChain
    { seen := Array.replicate c.catalog.directory.capacity false }

/-! ## Store -/

/-- Lays extents in a row: each has to begin where the one before it stops. -/
def layRow : Nat → List Extent → Except Violation Nat
  | cursor, [] => .ok cursor
  | cursor, e :: rest =>
      if e.offset ≠ cursor then .error (.gap e.offset cursor) else layRow e.stop rest

/-- The first violation that the items of the cache show, all chains being sound. The lengths of
the items and of the free blocks are added up in a machine word. -/
def firstMismatch (c : Cache) (s : Survey) : Except Fault (Option Violation) := do
  let free := c.catalog.free
  let used := sumOf (s.items.map (·.length))
  match s.seen.toList.findIdx? (! ·) with
  | some id => return some (.unreached id)
  | none =>
      if s.items.length ≠ c.len then
        return some (.count s.items.length c.len)
      let total ← Word.checked (used + free.freeBytes)
      if total ≠ c.layout.storeLength then
        return some (.total used free.freeBytes c.layout.storeLength)
      match layRow 0 ((s.items.map Entry.extent ++ free.blocks).mergeSort Extent.le) with
      | .error v => return some v
      | .ok cursor =>
          if cursor ≠ c.layout.storeLength then
            return some (.finish cursor c.layout.storeLength)
          return none

/-! ## Verdict -/

/-- A table for the keys of `len` items is set aside before the first chain is followed, so a `len`
for which the machine has no memory stops the audit there. The other tables of an audit are as long
as tables that the cache has already. -/
def audit (c : Cache) : Except Fault (Option Violation) := do
  match ← c.catalog.free.audit with
  | some v => return some v
  | none =>
    reserveKeys c.len
    match c.survey with
    | .error (.fault f) => .error f
    | .error (.violation v) => .ok (some v)
    | .ok s => c.firstMismatch s

end Cache
end BlockCache

import BlockCache.Error
import BlockCache.Violation

/-!
# FreeList — the unused runs of the store

Free space is a list of extents in ascending order. Space is taken from the end of the first block
that is long enough, so that a block keeps its offset while it shrinks; space that comes back is
merged with the neighbours it touches.
-/

namespace BlockCache

structure FreeList where
  blocks : List Extent
  storeLength : Nat
  deriving DecidableEq, Repr

namespace FreeList

/-! ## Creation -/

/-- The most blocks that can be apart from each other in a store of this length. -/
def maxBlocks (storeLength : Nat) : Nat :=
  (storeLength / granule + 1) / 2

/-- The free list of an unused store. Room for `maxBlocks` blocks is reserved at once. -/
def create (storeLength : Nat) (grants : Nat → Bool := reservable) : Except CacheError FreeList :=
  let bytes := maxBlocks storeLength * Footprint.extent
  if storeLength = 0 ∨ storeLength % granule ≠ 0 then
    .error (.badArgument (.storeLength storeLength))
  else if grants bytes then
    .ok ⟨[⟨0, storeLength⟩], storeLength⟩
  else
    .error (.outOfMemory (Word.saturate bytes))

def reset (f : FreeList) : FreeList :=
  { f with blocks := [⟨0, f.storeLength⟩] }

/-! ## Figures -/

def firstFree (f : FreeList) : Option Nat :=
  f.blocks.head?.map (·.offset)

def freeBytes (f : FreeList) : Nat :=
  sumOf (f.blocks.map (·.length))

/-- The free bytes as a machine word. Blocks that overlap may have more than one can hold. -/
def countFree (f : FreeList) : Except Fault Nat :=
  Word.checked f.freeBytes

def largestBlock (f : FreeList) : Nat :=
  (f.blocks.map (·.length)).foldl max 0

/-! ## Taking and giving back -/

/-- Takes `length` bytes from the end of the first block that has them. -/
def takeFirst (length : Nat) : List Extent → Option (Nat × List Extent)
  | [] => none
  | b :: rest =>
      if length < b.length then
        -- The block shrinks in its place.
        some (b.offset + (b.length - length), ⟨b.offset, b.length - length⟩ :: rest)
      else if length = b.length then
        -- The block is used up.
        some (b.offset, rest)
      else
        (takeFirst length rest).map fun (offset, left) => (offset, b :: left)

/-- A list on which no block has enough is only looked through. -/
def allocate (f : FreeList) (length : Nat) : Option (Nat × FreeList) :=
  if f.blocks.any (length ≤ ·.length) then
    (takeFirst length f.blocks).map fun (offset, left) => (offset, { f with blocks := left })
  else
    none

/-- Puts `e` in front of `after`, as one block with the first of them if the two touch. -/
def mergeRight (e : Extent) : List Extent → List Extent
  | [] => [e]
  | c :: rest =>
      if e.stop = c.offset then ⟨e.offset, e.length + c.length⟩ :: rest else e :: c :: rest

/-- Puts `e` between `b` and `after`, as one block with the neighbours it touches. -/
def mergeBoth (b e : Extent) (after : List Extent) : List Extent :=
  if b.stop = e.offset then
    mergeRight ⟨b.offset, b.length + e.length⟩ after
  else
    b :: mergeRight e after

/-- Puts `e` behind the last block that begins before it, where `b` is one that does. -/
def place (e b : Extent) : List Extent → List Extent
  | [] => mergeBoth b e []
  | c :: rest => if c.offset < e.offset then b :: place e c rest else mergeBoth b e (c :: rest)

def placeFirst (e : Extent) : List Extent → List Extent
  | [] => [e]
  | b :: rest => if b.offset < e.offset then place e b rest else mergeRight e (b :: rest)

def release (f : FreeList) (e : Extent) : FreeList :=
  { f with blocks := placeFirst e f.blocks }

/-- Gives `e` back. Where it stops has to be a number that a machine word holds. -/
def giveBack (f : FreeList) (e : Extent) : Except Fault FreeList := do
  let _ ← Word.checked e.stop
  return f.release e

/-! ## Audit -/

/-- The first block that breaks the order, given where the block before it stops. Where a block of
whole granules stops has to be a number that a machine word holds, or the audit stops there. -/
def firstBad (storeLength : Nat) : Option Nat → List Extent → Except Fault (Option Violation)
  | _, [] => .ok none
  | last, b :: rest =>
      if b.length = 0 ∨ b.length % granule ≠ 0 ∨ b.offset % granule ≠ 0 then
        .ok (some (.unaligned b))
      else do
        let stop ← Word.checked b.stop
        if storeLength < stop then
          return some (.pastEnd b storeLength)
        else if last.any (b.offset < ·) then
          return some (.overlapping b)
        else if last = some b.offset then
          return some (.adjacent b)
        else
          firstBad storeLength (some stop) rest

def audit (f : FreeList) : Except Fault (Option Violation) :=
  firstBad f.storeLength none f.blocks

end FreeList
end BlockCache

import BlockCache.Directory.Hash
import BlockCache.Error
import BlockCache.Fault
import BlockCache.Space.Extent

/-!
# Directory — entries and the heads of their chains

A directory has a fixed number of entries, named by their position, and one chain head per bin.
The chain of a bin starts at its head and follows the entries' `next` links. One more chain, the
spare chain, holds the entries that are not in use; as a chain its number is the number of bins.
Links may point anywhere: nothing here relies on a chain being sound.
-/

namespace BlockCache

structure Entry where
  next : Option Nat := none
  key : UInt32 := 0
  offset : Nat := 0
  /-- Store bytes reserved, a whole number of granules. -/
  length : Nat := 0
  /-- Bytes of the item itself. -/
  dataLength : Nat := 0
  time : Nat := 0
  deriving DecidableEq, Repr

/-- The store bytes that an entry reserves. -/
def Entry.extent (e : Entry) : Extent :=
  ⟨e.offset, e.length⟩

structure Directory where
  bins : Array (Option Nat)
  spare : Option Nat
  entries : Array Entry
  deriving DecidableEq, Repr

namespace Directory

def binCount (d : Directory) : Nat :=
  d.bins.size

def capacity (d : Directory) : Nat :=
  d.entries.size

def binOf (d : Directory) (key : UInt32) : Nat :=
  BlockCache.binOf d.binCount key

/-! ## Entries -/

def entry (d : Directory) (id : Nat) : Except Fault Entry :=
  match d.entries[id]? with
  | some e => .ok e
  | none => .error .noElement

def adjust (d : Directory) (id : Nat) (f : Entry → Entry) : Except Fault Directory :=
  if id < d.entries.size then
    .ok { d with entries := d.entries.modify id f }
  else
    .error .noElement

def relink (d : Directory) (id : Nat) (next : Option Nat) : Except Fault Directory :=
  d.adjust id fun e => { e with next := next }

/-! ## Heads -/

def head (d : Directory) (chain : Nat) : Except Fault (Option Nat) :=
  match d.bins[chain]? with
  | some h => .ok h
  | none => if chain = d.binCount then .ok d.spare else .error .noElement

def setHead (d : Directory) (chain : Nat) (h : Option Nat) : Except Fault Directory :=
  if chain < d.binCount then
    .ok { d with bins := d.bins.setIfInBounds chain h }
  else if chain = d.binCount then
    .ok { d with spare := h }
  else
    .error .noElement

/-! ## Creation -/

/-- Entries are named by 32-bit numbers. -/
def maxEntries : Nat := Nat.pow 2 32 - 1

/-- Blank entries, each linked to the one after it. -/
def threaded (count : Nat) : Array Entry :=
  Array.ofFn fun i : Fin count =>
    { next := if i.val + 1 < count then some (i.val + 1) else none }

def firstOf (count : Nat) : Option Nat :=
  if 0 < count then some 0 else none

def reserveEntries (count : Nat) (grants : Nat → Bool := reservable) :
    Except CacheError (Array Entry) :=
  let bytes := count * Footprint.entry
  if maxEntries < count then
    .error (.badArgument (.tooManyEntries count))
  else if grants bytes then
    .ok (threaded count)
  else
    .error (.outOfMemory (Word.saturate bytes))

/-- The heads of `bins` empty bins. The spare chain's head is reserved with them. A refusal states
the number of bytes, and it is a fault if no word can hold that number. -/
def reserveBins (bins : Nat) (grants : Nat → Bool := reservable) :
    Except Failure (Array (Option Nat)) :=
  let bytes := (bins + 1) * Footprint.head
  if bins ≠ Nat.pow 2 bins.log2 then
    .error (.error (.badArgument (.binCount bins)))
  else if grants bytes then
    .ok (Array.replicate bins none)
  else
    match Word.checked bytes with
    | .ok bytes => .error (.error (.outOfMemory bytes))
    | .error f => .error (.fault f)

/-- A directory with every bin empty and every entry spare. -/
def create (entries bins : Nat) : Except Failure Directory := do
  let table ← (reserveEntries entries).mapError .error
  let heads ← reserveBins bins
  return ⟨heads, firstOf entries, table⟩

/-- Blanks every entry and puts all of them on the spare chain, in order. -/
def clear (d : Directory) : Directory where
  bins := Array.replicate d.binCount none
  spare := firstOf d.capacity
  entries := threaded d.capacity

end Directory
end BlockCache

import BlockCache.Error
import BlockCache.Fault

/-!
# Region — the bytes of a store

A region is a window on a memory. A region that owns its memory is a window on all of it; a
borrowed one leaves the rest of the memory to whoever lent it. Reading and writing are by position
inside the window and never leave it.
-/

namespace BlockCache

structure Region where
  memory : ByteArray
  start : Nat
  length : Nat
  owned : Bool

namespace Region

/-! ## Making a region -/

/-- `2 ^ k` equal bytes. -/
def doubled (byte : UInt8) : Nat → ByteArray
  | 0 => ⟨#[byte]⟩
  | k + 1 =>
      let half := doubled byte k
      half ++ half

/-- A block of equal bytes, cut from the next larger power of two. -/
def filled (length : Nat) (byte : UInt8) : ByteArray :=
  (doubled byte (length.log2 + 1)).extract 0 length

/-- A region of its own, all zero. -/
def allocate (length : Nat) (grants : Nat → Bool := reservable) : Except CacheError Region :=
  if grants length then
    .ok ⟨filled length 0, 0, length, true⟩
  else
    .error (.outOfMemory (Word.saturate length))

/-- The part of `block` from `start` up to, and not including, `stop`. -/
def borrow (block : ByteArray) (start stop : Nat) : Except Fault Region :=
  if start ≤ stop ∧ stop ≤ block.size then
    .ok ⟨block, start, stop - start, false⟩
  else
    .error .outsideMemory

/-! ## Access -/

def bytes (r : Region) : ByteArray :=
  r.memory.extract r.start (r.start + r.length)

/-- Whether `count` bytes from `offset` on lie in the window. -/
def fits (r : Region) (offset count : Nat) : Bool :=
  offset + count ≤ r.length

def read (r : Region) (offset count : Nat) : Except Fault ByteArray :=
  if r.fits offset count then
    .ok (r.memory.extract (r.start + offset) (r.start + offset + count))
  else
    .error .outsideMemory

/-- Puts `data` in place of as many bytes from `offset` on. -/
def overwrite (r : Region) (offset : Nat) (data : ByteArray) : Region :=
  { r with memory := data.copySlice 0 r.memory (r.start + offset) data.size }

def write (r : Region) (offset : Nat) (data : ByteArray) : Except Fault Region :=
  if r.fits offset data.size then
    .ok (r.overwrite offset data)
  else
    .error .outsideMemory

end Region
end BlockCache

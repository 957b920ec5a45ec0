import BlockCache.Text.Record

/-!
# Extent — a run of store bytes

An extent covers the bytes from its offset up to, and not including, its stop.
-/

namespace BlockCache

structure Extent where
  offset : Nat
  length : Nat
  deriving DecidableEq, Repr

namespace Extent

def stop (e : Extent) : Nat :=
  e.offset + e.length

/-- Order by offset, then by length. -/
def le (a b : Extent) : Bool :=
  a.offset < b.offset || (a.offset == b.offset && a.length ≤ b.length)

def text (e : Extent) : String :=
  Text.record "FreeBlock" [("offset", toString e.offset), ("length", toString e.length)]

end Extent
end BlockCache

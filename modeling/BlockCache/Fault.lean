/-!
# Fault — an operation that cannot finish

Every operation here is total, and a table or a range of bytes may be damaged on purpose before it
is used. An operation that would have to touch something that does not exist stops with a `Fault`
and gives no answer.
-/

namespace BlockCache

inductive Fault
  /-- A position names no element of its table. -/
  | noElement
  /-- A range of bytes leaves the memory it belongs to. -/
  | outsideMemory
  /-- A count would fall below zero. -/
  | negativeCount
  /-- A number would not fit a machine word. -/
  | overflow
  /-- A table would take more bytes than addresses can tell apart. -/
  | unaddressable
  /-- The machine has no memory for a table. -/
  | refused
  deriving DecidableEq, Repr

end BlockCache

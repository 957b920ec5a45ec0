import BlockCache.Memory.Word

/-!
# Footprint — what records cost

The bytes that each kind of record takes, the allocation granule, the size from which the machine
refuses a reservation, and what a table of keys asks of it.
-/

namespace BlockCache

namespace Footprint

/-- Clock, three counters, store length, first free offset, bin count and entry count. -/
def header : Nat := 56

/-- The head of one chain. -/
def head : Nat := 8

def entry : Nat := 48

/-- One free block: an offset and a length. -/
def extent : Nat := 16

def headAlignment : Nat := 4

def entryAlignment : Nat := 8

def extentAlignment : Nat := 8

end Footprint

/-! ## Granules -/

/-- Store space is handed out in multiples of this. It is the size of a free block's record. -/
def granule : Nat := Footprint.extent

def roundToGranule (length : Nat) : Option Nat :=
  Word.roundUp? length granule

/-! ## Reservations -/

/-- A reservation of this many bytes or more is refused. -/
def reservationLimit : Nat := Nat.pow 2 47

/-- A machine with memory to spare grants every smaller reservation. Whatever reserves memory asks
this machine, unless it is given another. -/
def reservable (bytes : Nat) : Bool :=
  bytes < reservationLimit

/-! ## Tables of keys -/

/-- The slots of a table for `count` keys: a power of two, of which at most seven in eight are used
once there are eight or more. -/
def keySlots (count : Nat) : Nat :=
  if count < 4 then 4
  else if count < 8 then 8
  else Nat.pow 2 ((count * 8 / 7 - 1).log2 + 1)

/-- Every slot takes four bytes for its key and one for a mark, and sixteen marks follow the last
slot. A table for no keys takes nothing. -/
def keyTableBytes (count : Nat) : Nat :=
  if count = 0 then 0 else keySlots count * 5 + 16

/-- `2 ^ 60` slots hold this many keys. For one more the table doubles and passes `2 ^ 63` bytes,
which is more than one reservation may even ask for. -/
def addressableKeys : Nat := 7 * Nat.pow 2 57

/-- Sets a table for `count` keys aside. -/
def reserveKeys (count : Nat) : Except Fault Unit :=
  if addressableKeys < count then
    .error .unaddressable
  else if reservable (keyTableBytes count) then
    .ok ()
  else
    .error .refused

end BlockCache

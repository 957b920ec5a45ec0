import BlockCache.Fault

/-!
# Word — sizes that fit a machine word

Sizes, offsets and counts are natural numbers. Where the width of the machine word decides an
answer, one of these functions states how: a result that does not fit is missing, is cut off at the
largest word, or is a fault. No result ever loses its high bits.
-/

namespace BlockCache
namespace Word

/-- The number of 64-bit words. -/
def limit : Nat := Nat.pow 2 64

def fits? (n : Nat) : Option Nat :=
  if n < limit then some n else none

def saturate (n : Nat) : Nat :=
  min n (limit - 1)

def checked (n : Nat) : Except Fault Nat :=
  if n < limit then .ok n else .error .overflow

/-- The least multiple of `unit` that is not below `n`, if a word holds it. -/
def roundUp? (n unit : Nat) : Option Nat :=
  fits? ((n + (unit - 1)) / unit * unit)

end Word

/-- The sum of sizes. -/
def sumOf (sizes : List Nat) : Nat :=
  sizes.foldr (· + ·) 0

end BlockCache

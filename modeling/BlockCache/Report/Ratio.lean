/-!
# Ratio — quotients of counts

Counts become doubles before they are divided. A quotient over nothing is zero.
-/

namespace BlockCache

/-- The double nearest to a count of at most 64 bits. -/
def countToFloat (n : Nat) : Float :=
  n.toUInt64.toFloat

def ratio (part whole : Nat) : Float :=
  if whole = 0 then 0.0 else countToFloat part / countToFloat whole

end BlockCache

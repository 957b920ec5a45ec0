/-!
# Hash — which bin a key belongs to

The high bits of a key are folded onto the low ones, and a multiplication by an odd constant
spreads keys that lie close together. The low bits of the product name the bin.
-/

namespace BlockCache

/-- The fractional part of the golden ratio, in 32 bits. -/
def goldenRatio : UInt32 := 0x9e3779b9

def foldKey (key : UInt32) : UInt32 :=
  let h := key ^^^ (key >>> 16)
  h ^^^ (h >>> 8)

def hashKey (key : UInt32) : UInt32 :=
  foldKey key * goldenRatio

def binOf (bins : Nat) (key : UInt32) : Nat :=
  (hashKey key).toNat % bins

end BlockCache

import BlockCache.Memory.Word
import BlockCache.Report.Ratio

/-!
# Occupancy — how full a cache is

The report holds the length of every bin's chain and the figures of the store; the other figures
follow from these.
-/

namespace BlockCache

structure Occupancy where
  chainLengths : List Nat
  entryCount : Nat
  storeLength : Nat
  storeUsed : Nat
  freeBlocks : Nat
  largestFreeBlock : Nat
  deriving DecidableEq, Repr

namespace Occupancy

/-- The used entries have to be a number that a machine word holds, and a store cannot have more
free bytes than it has bytes. -/
def measure (chainLengths : List Nat) (entryCount storeLength freeBytes freeBlocks
    largestFreeBlock : Nat) : Except Fault Occupancy := do
  let _ ← Word.checked (sumOf chainLengths)
  if freeBytes ≤ storeLength then
    .ok ⟨chainLengths, entryCount, storeLength, storeLength - freeBytes, freeBlocks,
      largestFreeBlock⟩
  else
    .error .negativeCount

/-! ## Counts -/

def binCount (o : Occupancy) : Nat :=
  o.chainLengths.length

def occupiedBins (o : Occupancy) : Nat :=
  o.chainLengths.countP (0 < ·)

def usedEntries (o : Occupancy) : Nat :=
  sumOf o.chainLengths

def longestChain (o : Occupancy) : Nat :=
  o.chainLengths.foldl max 0

/-! ## Averages and shares -/

/-- Over all bins, empty ones included. -/
def meanChainLength (o : Occupancy) : Float :=
  ratio o.usedEntries o.binCount

/-- The mean squared distance of the chain lengths from their mean. -/
def chainLengthVariance (o : Occupancy) : Float :=
  if o.binCount = 0 then
    0.0
  else
    let mean := o.meanChainLength
    let squares := o.chainLengths.map fun n =>
      let d := countToFloat n - mean
      d * d
    squares.foldl (· + ·) 0.0 / countToFloat o.binCount

def binOccupancy (o : Occupancy) : Float :=
  ratio o.occupiedBins o.binCount

def entryOccupancy (o : Occupancy) : Float :=
  ratio o.usedEntries o.entryCount

def storeOccupancy (o : Occupancy) : Float :=
  ratio o.storeUsed o.storeLength

end Occupancy
end BlockCache

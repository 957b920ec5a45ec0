import BlockCache.Space.Extent
import BlockCache.Text.Quoted

/-!
# Violation — where the parts of a cache disagree

What the audits of the free list and of a whole cache can find.
-/

namespace BlockCache

inductive Violation
  | unaligned (block : Extent)
  | pastEnd (block : Extent) (storeLength : Nat)
  | overlapping (block : Extent)
  | adjacent (block : Extent)
  | reachedTwice (id : Nat)
  | wrongBin (key : UInt32) (bin home : Nat)
  | cachedTwice (key : UInt32)
  | lengths (key : UInt32) (dataLength length : Nat)
  | unreached (id : Nat)
  | count (linked len : Nat)
  | total (used free storeLength : Nat)
  | gap (offset cursor : Nat)
  | finish (cursor storeLength : Nat)
  /-- A finding in the caller's own words. -/
  | other (finding : String)
  deriving DecidableEq, Repr

namespace Violation

def kind : String := "InvariantError"

def message : Violation → String
  | unaligned block => "free block " ++ block.text ++ " is not granule aligned"
  | pastEnd block storeLength =>
      "free block " ++ block.text ++ s!" runs past the store end {storeLength}"
  | overlapping block => "free block " ++ block.text ++ " overlaps or precedes its predecessor"
  | adjacent block => "free block " ++ block.text ++ " is adjacent to its predecessor"
  | reachedTwice id => s!"entry {id} is reachable from more than one chain"
  | wrongBin key bin home => s!"key {key} sits in bin {bin} but hashes to bin {home}"
  | cachedTwice key => s!"key {key} is cached twice"
  | lengths key dataLength length => s!"key {key} has inconsistent lengths {dataLength}/{length}"
  | unreached id => s!"entry {id} is not reachable from any chain"
  | count linked len => s!"{linked} entries are linked but len is {len}"
  | total used free storeLength =>
      s!"occupied {used} + free {free} != store length {storeLength}"
  | gap offset cursor => s!"store range at {offset} does not start at the previous end {cursor}"
  | finish cursor storeLength => s!"store ranges end at {cursor}, expected {storeLength}"
  | other finding => finding

def text (v : Violation) : String :=
  kind ++ "(" ++ Text.quote v.message ++ ")"

end Violation
end BlockCache

import BlockCache.Directory.Basic

/-!
# Victim — the bin head to give up first

Only the heads of bins are considered. The one with the smallest time is chosen, and of several
with that time the one in the lowest bin.
-/

namespace BlockCache

/-- The head of an occupied bin. -/
structure Candidate where
  bin : Nat
  id : Nat
  time : Nat
  deriving DecidableEq, Repr

namespace Directory

/-- The choice among `best` and the heads of `count` bins from `bin` on. A head has to be strictly
older to take the place of one in a lower bin. -/
def oldest (d : Directory) (best : Option Candidate) (bin : Nat) :
    Nat → Except Fault (Option Candidate)
  | 0 => .ok best
  | count + 1 =>
      match d.bins[bin]? with
      | some (some id) =>
          match d.entry id with
          | .error f => .error f
          | .ok e =>
              if best.any (·.time ≤ e.time) then
                d.oldest best (bin + 1) count
              else
                d.oldest (some ⟨bin, id, e.time⟩) (bin + 1) count
      -- An empty bin is passed over.
      | _ => d.oldest best (bin + 1) count

def victim (d : Directory) : Except Fault (Option Candidate) :=
  d.oldest none 0 d.binCount

end Directory
end BlockCache

import BlockCache.Directory.Trail

/-!
# Links — finding, linking and unlinking entries

New entries go to the tail of their bin, so the head of a bin is the entry that has been in it the
longest. Links lead forward only: whoever unlinks an entry says which one precedes it. The spare
chain is used from its head.
-/

namespace BlockCache

/-- Where an entry sits: its bin, the entry before it, and the entry itself. -/
structure Place where
  bin : Nat
  prev : Option Nat
  id : Nat
  deriving DecidableEq, Repr

namespace Directory

/-- The first entry met from a head on that holds `key`, where `prev` is the entry met before. The
links behind it are not followed. -/
def seek (entries : Array Entry) (bin : Nat) (key : UInt32) :
    Nat → Option Nat → Option Nat → Except Fault (Option Place)
  | 0, _, _ => .ok none
  | _ + 1, _, none => .ok none
  | steps + 1, prev, some id =>
      match entries[id]? with
      | none => .error .noElement
      | some e =>
          if e.key = key then
            .ok (some ⟨bin, prev, id⟩)
          else
            seek entries bin key steps (some id) e.next

/-- Looks for `key` in the one bin that may hold it. -/
def find (d : Directory) (key : UInt32) : Except Fault (Option Place) := do
  let bin := d.binOf key
  seek d.entries bin key d.capacity none (← d.head bin)

/-- Links `id` behind the last entry of `chain`. -/
def append (d : Directory) (chain id : Nat) : Except Fault Directory := do
  let d ← d.relink id none
  match ← d.last chain with
  | some last => d.relink last (some id)
  | none => d.setHead chain (some id)

/-- Takes `id` out of `chain`, where `prev` links to it, or the head if there is no `prev`. -/
def unlink (d : Directory) (chain : Nat) (prev : Option Nat) (id : Nat) :
    Except Fault Directory := do
  let next := (← d.entry id).next
  -- The neighbours pass `id` by before its own link goes.
  let d ← match prev with
    | some p => d.relink p next
    | none => d.setHead chain next
  d.relink id none

/-- Takes the first entry of the spare chain, if it has one. -/
def claim (d : Directory) : Except Fault (Option Nat × Directory) := do
  match d.spare with
  | none => return (none, d)
  | some id =>
      let next := (← d.entry id).next
      let d ← { d with spare := next }.relink id none
      return (some id, d)

/-- Puts `id` in front of the spare chain. -/
def retire (d : Directory) (id : Nat) : Except Fault Directory := do
  let d ← d.relink id d.spare
  return { d with spare := some id }

end Directory
end BlockCache

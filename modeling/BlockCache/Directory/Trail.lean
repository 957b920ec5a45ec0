import BlockCache.Directory.Basic

/-!
# Trail — following the links of a chain

A trail lists the entries met from a head on. It takes at most as many steps as there are entries,
so it ends on every directory, and it says whether it had to stop at a link to no entry. Where only
a figure of a chain is asked for, `Trail.fold` forms it without the list (`fold_eq_foldl`).
-/

namespace BlockCache

structure Trail where
  ids : List Nat
  /-- The next link to follow names no entry. -/
  lost : Bool := false
  deriving DecidableEq, Repr

namespace Trail

def walk (entries : Array Entry) : Nat → Option Nat → Trail
  | 0, _ => ⟨[], false⟩
  | _ + 1, none => ⟨[], false⟩
  | steps + 1, some id =>
      match entries[id]? with
      | none => ⟨[], true⟩
      | some e =>
          let rest := walk entries steps e.next
          ⟨id :: rest.ids, rest.lost⟩

/-- All entries of the chain, unless it leads to no entry. -/
def all (t : Trail) : Except Fault (List Nat) :=
  if t.lost then .error .noElement else .ok t.ids

/-- Folds `f` over the entries met from a head on. -/
@[specialize]
def fold {σ : Type} (f : σ → Nat → σ) (entries : Array Entry) :
    Nat → σ → Option Nat → Except Fault σ
  | 0, s, _ => .ok s
  | _ + 1, s, none => .ok s
  | steps + 1, s, some id =>
      match entries[id]? with
      | none => .error .noElement
      | some e => fold f entries steps (f s id) e.next

theorem fold_eq_foldl {σ : Type} (f : σ → Nat → σ) (entries : Array Entry) (steps : Nat) (s : σ)
    (head : Option Nat) :
    fold f entries steps s head = (walk entries steps head).all.map (·.foldl f s) := by
  induction steps generalizing s head with
  | zero => rfl
  | succ steps ih =>
      cases head with
      | none => rfl
      | some id =>
          cases h : entries[id]? with
          | none => simp [fold, walk, h, all, Except.map]
          | some e =>
              simp only [fold, walk, h, ih, all]
              cases (walk entries steps e.next).lost <;> rfl

end Trail

namespace Directory

def trailFrom (d : Directory) (head : Option Nat) : Trail :=
  Trail.walk d.entries d.capacity head

def chainFrom (d : Directory) (head : Option Nat) : Except Fault (List Nat) :=
  (d.trailFrom head).all

def trail (d : Directory) (chain : Nat) : Except Fault Trail :=
  (d.head chain).map d.trailFrom

def chain (d : Directory) (chain : Nat) : Except Fault (List Nat) := do
  (← d.trail chain).all

/-- The last entry of a chain. -/
def last (d : Directory) (chain : Nat) : Except Fault (Option Nat) := do
  Trail.fold (fun _ id => some id) d.entries d.capacity none (← d.head chain)

def chainLength (d : Directory) (chain : Nat) : Except Fault Nat := do
  Trail.fold (fun n _ => n + 1) d.entries d.capacity 0 (← d.head chain)

/-- The chains of all bins in order, and the spare chain after them. -/
def chains (d : Directory) : Except Fault (List (List Nat)) :=
  (List.range (d.binCount + 1)).mapM d.chain

end Directory
end BlockCache

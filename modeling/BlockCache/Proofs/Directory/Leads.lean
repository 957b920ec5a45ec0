import BlockCache.Directory.Links
import BlockCache.Proofs.Steps
import Mathlib.Data.List.Perm.Subperm

/-!
# Leads — following links as a relation

`Leads entries head ids last` says that following the links from `head` meets exactly the entries
`ids`, in this order, and comes to `last` then. A chain that ends is one that leads to `none`; it
meets no entry twice, so a walk that is cut off after as many steps as there are entries sees all of
it.
-/

namespace BlockCache

/-! ## Links and items -/

/-- Where the entry `id` links to, if there is such an entry. -/
def link (entries : Array Entry) (id : Nat) : Option (Option Nat) :=
  entries[id]?.map (·.next)

/-- What an entry holds, apart from its link. A position without an entry counts as blank. -/
def itemAt (entries : Array Entry) (id : Nat) : Entry :=
  { entries[id]?.getD {} with next := none }

theorem link_eq_some_iff {entries : Array Entry} {id : Nat} {next : Option Nat} :
    link entries id = some next ↔ ∃ e, entries[id]? = some e ∧ e.next = next := by
  simp [link]

theorem lt_size_of_link {entries : Array Entry} {id : Nat} {next : Option Nat}
    (h : link entries id = some next) : id < entries.size := by
  rcases link_eq_some_iff.1 h with ⟨e, he, _⟩
  exact (Array.getElem?_eq_some_iff.1 he).1

theorem exists_link {entries : Array Entry} {id : Nat} (h : id < entries.size) :
    ∃ next, link entries id = some next :=
  ⟨entries[id].next, link_eq_some_iff.2 ⟨entries[id], Array.getElem?_eq_getElem h, rfl⟩⟩

theorem itemAt_of_some {entries : Array Entry} {id : Nat} {e : Entry}
    (h : entries[id]? = some e) : itemAt entries id = { e with next := none } := by
  simp [itemAt, h]

/-- The table with the link of `id` changed. -/
def setLink (entries : Array Entry) (id : Nat) (next : Option Nat) : Array Entry :=
  entries.modify id fun e => { e with next := next }

@[simp]
theorem size_setLink (entries : Array Entry) (id : Nat) (next : Option Nat) :
    (setLink entries id next).size = entries.size :=
  Array.size_modify

theorem link_setLink_self {entries : Array Entry} {id : Nat} {next : Option Nat}
    (h : id < entries.size) : link (setLink entries id next) id = some next := by
  rw [link, setLink, Array.getElem?_modify, if_pos rfl, Array.getElem?_eq_getElem h]
  rfl

theorem link_setLink_of_ne {entries : Array Entry} {id id' : Nat} {next : Option Nat}
    (h : id' ≠ id) : link (setLink entries id next) id' = link entries id' := by
  simp [link, setLink, Array.getElem?_modify, h.symm]

@[simp]
theorem itemAt_setLink (entries : Array Entry) (id : Nat) (next : Option Nat) :
    itemAt (setLink entries id next) = itemAt entries := by
  funext id'
  simp only [itemAt, setLink, Array.getElem?_modify]
  split_ifs with h
  · subst h
    cases entries[id]? <;> rfl
  · rfl

/-! ## Leading from entry to entry -/

/-- There are no more than `n` different numbers below `n`. -/
theorem length_le_of_nodup_of_lt {ids : List Nat} {n : Nat} (hnodup : ids.Nodup)
    (hlt : ∀ id ∈ ids, id < n) : ids.length ≤ n := by
  have hsub : ids ⊆ List.range n := fun id hid => List.mem_range.2 (hlt id hid)
  calc
    ids.length ≤ (List.range n).length := (List.Nodup.subperm hnodup hsub).length_le
    _ = n := List.length_range

/-- Following the links from `head` meets `ids` and then comes to `last`. -/
def Leads (entries : Array Entry) : Option Nat → List Nat → Option Nat → Prop
  | head, [], last => head = last
  | head, id :: ids, last =>
      head = some id ∧ ∃ next, link entries id = some next ∧ Leads entries next ids last

namespace Leads

variable {entries entries' : Array Entry} {head last : Option Nat} {ids : List Nat} {id : Nat}

theorem head?_eq (h : Leads entries head ids none) : ids.head? = head := by
  cases ids with
  | nil => exact h.symm
  | cons id ids => exact h.1.symm

theorem append_iff {front back : List Nat} :
    Leads entries head (front ++ back) last ↔
      ∃ middle, Leads entries head front middle ∧ Leads entries middle back last := by
  induction front generalizing head with
  | nil => simp [Leads]
  | cons id front ih =>
      simp only [List.cons_append, Leads, ih]
      constructor
      · rintro ⟨hhead, next, hlink, middle, hfront, hback⟩
        exact ⟨middle, ⟨hhead, next, hlink, hfront⟩, hback⟩
      · rintro ⟨middle, ⟨hhead, next, hlink, hfront⟩, hback⟩
        exact ⟨hhead, next, hlink, middle, hfront, hback⟩

theorem snoc_iff :
    Leads entries head (ids ++ [id]) last ↔
      Leads entries head ids (some id) ∧ link entries id = some last := by
  rw [append_iff]
  constructor
  · rintro ⟨middle, hids, rfl, next, hlink, rfl⟩
    exact ⟨hids, hlink⟩
  · rintro ⟨hids, hlink⟩
    exact ⟨some id, hids, rfl, last, hlink, rfl⟩

/-- Only the links of the entries that are met matter. -/
theorem congr (h : Leads entries head ids last)
    (hlinks : ∀ id ∈ ids, link entries' id = link entries id) :
    Leads entries' head ids last := by
  induction ids generalizing head with
  | nil => exact h
  | cons id ids ih =>
      rcases h with ⟨hhead, next, hlink, hrest⟩
      rcases List.forall_mem_cons.1 hlinks with ⟨hid, hids⟩
      exact ⟨hhead, next, hid.trans hlink, ih hrest hids⟩

/-- The link of the last entry alone decides where the chain comes to. -/
theorem redirect (h : Leads entries head (ids ++ [id]) last) (hid : id ∉ ids)
    (next : Option Nat) : Leads (setLink entries id next) head (ids ++ [id]) next := by
  rcases snoc_iff.1 h with ⟨hids, hlink⟩
  refine snoc_iff.2 ⟨hids.congr fun x hx => ?_, link_setLink_self (lt_size_of_link hlink)⟩
  exact link_setLink_of_ne fun heq => hid (heq ▸ hx)

theorem lt_size (h : Leads entries head ids last) : ∀ id ∈ ids, id < entries.size := by
  induction ids generalizing head with
  | nil => simp
  | cons id ids ih =>
      rcases h with ⟨_, next, hlink, hrest⟩
      exact List.forall_mem_cons.2 ⟨lt_size_of_link hlink, ih hrest⟩

/-- The links determine what is met before the end. -/
theorem unique {ids' : List Nat} (h : Leads entries head ids none)
    (h' : Leads entries head ids' none) : ids = ids' := by
  induction ids generalizing head ids' with
  | nil =>
      cases ids' with
      | nil => rfl
      | cons id' ids' =>
          have hnone : head = none := h
          have hsome : head = some id' := h'.1
          cases hnone.symm.trans hsome
  | cons id ids ih =>
      rcases h with ⟨rfl, next, hlink, hrest⟩
      cases ids' with
      | nil => cases h'
      | cons id' ids' =>
          rcases h' with ⟨hid, next', hlink', hrest'⟩
          cases hid
          cases hlink.symm.trans hlink'
          rw [ih hrest hrest']

/-- A chain that ends meets no entry twice: what follows the two places would be the same. -/
theorem nodup (h : Leads entries head ids none) : ids.Nodup := by
  induction ids generalizing head with
  | nil => exact List.nodup_nil
  | cons id ids ih =>
      rcases h with ⟨hhead, next, hlink, hrest⟩
      refine List.nodup_cons.2 ⟨fun hmem => ?_, ih hrest⟩
      obtain ⟨front, back, rfl⟩ := List.append_of_mem hmem
      -- From its second place on, `id` comes to the end by the back alone, but also by all of it.
      rcases append_iff.1 hrest with ⟨middle, _, hback⟩
      have hlonger : Leads entries (some id) (id :: (front ++ id :: back)) none :=
        ⟨rfl, next, hlink, hrest⟩
      obtain rfl : middle = some id := hback.1
      have hlength := congrArg List.length (hback.unique hlonger)
      simp only [List.length_cons, List.length_append] at hlength
      omega

/-- As long as no entry is met twice, there are no more places than there are entries. -/
theorem length_le_of_nodup (h : Leads entries head ids last) (hnodup : ids.Nodup) :
    ids.length ≤ entries.size :=
  length_le_of_nodup_of_lt hnodup h.lt_size

theorem length_le (h : Leads entries head ids none) : ids.length ≤ entries.size :=
  h.length_le_of_nodup h.nodup

/-! ## Bounded walks -/

theorem walk_eq {steps : Nat} (h : Leads entries head ids none) (hsteps : ids.length ≤ steps) :
    Trail.walk entries steps head = ⟨ids, false⟩ := by
  induction ids generalizing head steps with
  | nil =>
      obtain rfl : head = none := h
      cases steps <;> rfl
  | cons id ids ih =>
      rcases h with ⟨rfl, next, hlink, hrest⟩
      rcases link_eq_some_iff.1 hlink with ⟨e, he, rfl⟩
      cases steps with
      | zero => simp at hsteps
      | succ steps =>
          have hwalk := ih hrest (Nat.le_of_succ_le_succ hsteps)
          simp only [Trail.walk, he, hwalk]

theorem fold_eq {σ : Type} (h : Leads entries head ids none) (f : σ → Nat → σ) (s : σ) :
    Trail.fold f entries entries.size s head = .ok (ids.foldl f s) := by
  rw [Trail.fold_eq_foldl, h.walk_eq h.length_le]
  rfl

/-- A search stops at the first entry with the key, and knows the entry before it. -/
theorem seek_found {bin steps : Nat} {key : UInt32} {prev : Option Nat} {front back : List Nat}
    (h : Leads entries head (front ++ id :: back) last)
    (hother : ∀ x ∈ front, (itemAt entries x).key ≠ key) (hkey : (itemAt entries id).key = key)
    (hsteps : front.length < steps) :
    Directory.seek entries bin key steps prev head =
      .ok (some ⟨bin, front.getLast?.or prev, id⟩) := by
  induction front generalizing head steps prev with
  | nil =>
      -- The head is the entry itself.
      rcases h with ⟨rfl, next, hlink, _⟩
      rcases link_eq_some_iff.1 hlink with ⟨e, he, _⟩
      rw [itemAt_of_some he] at hkey
      cases steps with
      | zero => simp at hsteps
      | succ steps =>
          simp only [Directory.seek, he]
          exact if_pos hkey
  | cons x front ih =>
      -- The head has another key, and is the entry before the next one from here on.
      rcases h with ⟨rfl, next, hlink, hrest⟩
      rcases link_eq_some_iff.1 hlink with ⟨e, he, rfl⟩
      rcases List.forall_mem_cons.1 hother with ⟨hx, hfront⟩
      rw [itemAt_of_some he] at hx
      cases steps with
      | zero => simp at hsteps
      | succ steps =>
          have hrec : Directory.seek entries bin key steps (some x) e.next =
              .ok (some ⟨bin, front.getLast?.or (some x), id⟩) :=
            ih hrest hfront (Nat.lt_of_succ_lt_succ hsteps)
          have hlast : (x :: front).getLast?.or prev = front.getLast?.or (some x) := by
            rw [List.getLast?_cons]
            cases front.getLast? <;> rfl
          simp only [Directory.seek, he, hrec, hlast]
          exact if_neg hx

theorem seek_missed {bin steps : Nat} {key : UInt32} {prev : Option Nat}
    (h : Leads entries head ids none) (hother : ∀ x ∈ ids, (itemAt entries x).key ≠ key) :
    Directory.seek entries bin key steps prev head = .ok none := by
  induction ids generalizing head steps prev with
  | nil =>
      obtain rfl : head = none := h
      cases steps <;> rfl
  | cons x ids ih =>
      rcases h with ⟨rfl, next, hlink, hrest⟩
      rcases link_eq_some_iff.1 hlink with ⟨e, he, rfl⟩
      rcases List.forall_mem_cons.1 hother with ⟨hx, hids⟩
      rw [itemAt_of_some he] at hx
      -- A search that runs out of steps reports a miss, too.
      cases steps with
      | zero => rfl
      | succ steps =>
          have hrec : Directory.seek entries bin key steps (some x) e.next = .ok none :=
            ih hrest hids
          simp only [Directory.seek, he, hrec]
          exact if_neg hx

end Leads
end BlockCache

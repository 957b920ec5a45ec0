import BlockCache.Proofs.Directory.Rows
import Mathlib.Data.List.Pairwise

/-!
# Walks — trails that end and trails that are cut off

`d.Trails lists` says that the trail of every chain `c` lists the entries `lists c` and is not lost.
A directory whose chains end has such lists (`trails_of_leads`), and so has every directory whose
heads and links name entries (`Linked.trails`): there a chain that does not end is cut off after as
many steps as there are entries. Unless it covers the whole directory, such a chain makes some entry
appear twice (`Linked.coversAll_of_nodup`).
-/

namespace BlockCache

/-! ## Every number once -/

/-- A list has every number below `n` once, and no other, exactly if it is `0, …, n - 1` in some
order. -/
theorem perm_range_iff {ids : List Nat} {n : Nat} :
    ids.Perm (List.range n) ↔ ∀ id, ids.count id = if id < n then 1 else 0 := by
  simp only [List.perm_iff_count, List.count_range]

theorem perm_range_iff_of_lt {ids : List Nat} {n : Nat} (h : ∀ id ∈ ids, id < n) :
    ids.Perm (List.range n) ↔ ids.Nodup ∧ ∀ id < n, id ∈ ids := by
  constructor
  · intro hperm
    exact ⟨hperm.nodup_iff.2 List.nodup_range, fun id hid => hperm.mem_iff.2 (List.mem_range.2 hid)⟩
  · rintro ⟨hnodup, hall⟩
    rw [List.perm_ext_iff_of_nodup hnodup List.nodup_range]
    simp only [List.mem_range]
    exact fun id => ⟨h id, hall id⟩

/-! ## Tables without dangling links -/

/-- Every link is missing or names an entry. -/
def Closed (entries : Array Entry) : Prop :=
  ∀ id next, link entries id = some (some next) → next < entries.size

theorem closed_of_mem {entries : Array Entry}
    (h : ∀ e ∈ entries, ∀ next ∈ e.next, next < entries.size) : Closed entries := by
  intro id next hlink
  obtain ⟨e, he, hnext⟩ := link_eq_some_iff.1 hlink
  exact h e (Array.mem_of_getElem? he) next hnext

/-- A walk from an entry meets entries only; it stops at the end of the chain or when the steps are
used up. -/
theorem Closed.walk_spec {entries : Array Entry} (h : Closed entries) (steps : Nat)
    (head : Option Nat) (hhead : ∀ id, head = some id → id < entries.size) :
    ∃ ids last, Trail.walk entries steps head = ⟨ids, false⟩ ∧
      Leads entries head ids last ∧ (last = none ∨ ids.length = steps) := by
  induction steps generalizing head with
  | zero => exact ⟨[], head, rfl, rfl, Or.inr rfl⟩
  | succ steps ih =>
      cases head with
      | none => exact ⟨[], none, rfl, rfl, Or.inl rfl⟩
      | some id =>
          obtain ⟨_, hlink⟩ := exists_link (hhead id rfl)
          obtain ⟨e, he, rfl⟩ := link_eq_some_iff.1 hlink
          obtain ⟨ids, last, hwalk, hleads, hlast⟩ :=
            ih e.next fun next hnext => h id next (hnext ▸ hlink)
          refine ⟨id :: ids, last, ?_, ⟨rfl, e.next, hlink, hleads⟩, ?_⟩
          · simp only [Trail.walk, he, hwalk]
          · rw [List.length_cons]
            exact hlast.imp_right (congrArg (· + 1))

namespace Directory

variable {d : Directory} {lists : Nat → List Nat} {c : Nat}

/-! ## What a walk meets -/

/-- The trail of every chain lists these entries. -/
structure Trails (d : Directory) (lists : Nat → List Nat) : Prop where
  trail_eq : ∀ c ≤ d.binCount, d.trail c = .ok ⟨lists c, false⟩
  lt_capacity : ∀ c ≤ d.binCount, ∀ id ∈ lists c, id < d.capacity

theorem trail_eq_walk (hc : c ≤ d.binCount) :
    d.trail c = .ok (Trail.walk d.entries d.capacity (d.headOf c)) := by
  simp only [trail, head_eq hc]
  rfl

theorem trails_of_leads (h : ∀ c ≤ d.binCount, Leads d.entries (d.headOf c) (lists c) none) :
    d.Trails lists where
  trail_eq := by
    intro c hc
    have hwalk : Trail.walk d.entries d.capacity (d.headOf c) = ⟨lists c, false⟩ :=
      (h c hc).walk_eq (h c hc).length_le
    rw [trail_eq_walk hc, hwalk]
  lt_capacity := fun c hc => (h c hc).lt_size

/-! ## Directories without dangling links -/

/-- Every head and every link is missing or names an entry. -/
structure Linked (d : Directory) : Prop where
  heads : ∀ c ≤ d.binCount, ∀ id, d.headOf c = some id → id < d.capacity
  links : ∀ id next, link d.entries id = some (some next) → next < d.capacity

theorem linked_of_mem (hheads : ∀ c ≤ d.binCount, ∀ id ∈ d.headOf c, id < d.capacity)
    (hlinks : ∀ e ∈ d.entries, ∀ next ∈ e.next, next < d.capacity) : d.Linked where
  heads := hheads
  links := closed_of_mem hlinks

/-- The entries that the trail of a chain lists. -/
def met (d : Directory) (c : Nat) : List Nat :=
  (Trail.walk d.entries d.capacity (d.headOf c)).ids

namespace Linked

/-- A trail leads to the end of its chain or to the link at which it is cut off. -/
theorem met_spec (h : d.Linked) (hc : c ≤ d.binCount) :
    ∃ last, d.trail c = .ok ⟨d.met c, false⟩ ∧
      Leads d.entries (d.headOf c) (d.met c) last ∧
      (last = none ∨ (d.met c).length = d.capacity) := by
  obtain ⟨ids, last, hwalk, hleads, hlast⟩ :=
    Closed.walk_spec h.links d.capacity _ (h.heads c hc)
  rw [trail_eq_walk hc, met, hwalk]
  exact ⟨last, rfl, hleads, hlast⟩

theorem trails (h : d.Linked) : d.Trails d.met where
  trail_eq := by
    intro c hc
    obtain ⟨_, htrail, _⟩ := h.met_spec hc
    exact htrail
  lt_capacity := by
    intro c hc
    obtain ⟨_, _, hleads, _⟩ := h.met_spec hc
    exact hleads.lt_size

end Linked

/-! ## Chains that do not end -/

/-- The chain never comes to an end. -/
def Endless (d : Directory) (c : Nat) : Prop :=
  ∀ ids, ¬ Leads d.entries (d.headOf c) ids none

/-- A chain that starts somewhere does not end where no entry is without a link. -/
theorem endless_of_links (hhead : d.headOf c ≠ none) (hlinks : ∀ e ∈ d.entries, e.next ≠ none) :
    d.Endless c := by
  intro ids hleads
  rcases List.eq_nil_or_concat ids with rfl | ⟨front, id, rfl⟩
  · exact hhead hleads
  · rw [List.concat_eq_append, Leads.snoc_iff, link_eq_some_iff] at hleads
    obtain ⟨_, e, he, hnext⟩ := hleads
    exact hlinks e (Array.mem_of_getElem? he) hnext

/-- The chain meets every entry once before it comes back to one of them, and no other chain has an
entry. -/
def CoversAll (d : Directory) (c : Nat) : Prop :=
  (∃ ids next, Leads d.entries (d.headOf c) ids (some next) ∧ ids.Perm (List.range d.capacity)) ∧
    ∀ c' ≤ d.binCount, c' ≠ c → d.headOf c' = none

/-- Where no entry is met twice, a chain that is cut off leaves none for the other chains. -/
theorem Linked.coversAll_of_nodup (h : d.Linked) (hc : c ≤ d.binCount) (hendless : d.Endless c)
    (hnodup : (rows d.met (d.binCount + 1)).Nodup) : d.CoversAll c := by
  rw [rows, List.nodup_flatMap] at hnodup
  obtain ⟨hnodup, hapart⟩ := hnodup
  have hmem : ∀ {c}, c ≤ d.binCount → c ∈ List.range (d.binCount + 1) := fun hc =>
    List.mem_range.2 (Nat.lt_succ_of_le hc)
  have hsymm : Std.Symm (Function.onFun List.Disjoint d.met) :=
    ⟨fun _ _ h _ hx hy => h hy hx⟩
  obtain ⟨last, _, hleads, hlast⟩ := h.met_spec hc
  cases last with
  | none => exact absurd hleads (hendless _)
  | some next =>
      have hlength : (d.met c).length = d.capacity := hlast.resolve_left (by simp)
      have hall : (d.met c).Perm (List.range d.capacity) := by
        refine (List.Nodup.subperm (hnodup c (hmem hc)) fun id hid => ?_).perm_of_length_le ?_
        · exact List.mem_range.2 (hleads.lt_size id hid)
        · rw [List.length_range]
          exact Nat.le_of_eq hlength.symm
      refine ⟨⟨d.met c, next, hleads, hall⟩, fun c' hc' hne => ?_⟩
      obtain ⟨last', _, hleads', hlast'⟩ := h.met_spec hc'
      -- The other chain has what remains of the entries, which is nothing.
      have hnil : d.met c' = [] := by
        rw [List.eq_nil_iff_forall_not_mem]
        intro id hid
        have hmet : id ∈ d.met c := hall.mem_iff.2 (List.mem_range.2 (hleads'.lt_size id hid))
        exact hapart.forall (hmem hc') (hmem hc) hne hid hmet
      rw [hnil] at hleads' hlast'
      have hsame : d.headOf c' = last' := hleads'
      rcases hlast' with rfl | hzero
      · exact hsame
      · -- Without entries there would be no link to go on with.
        have hnext : d.headOf c = some next := by
          rw [← hzero, List.length_nil, List.length_eq_zero_iff] at hlength
          rw [hlength] at hleads
          exact hleads
        have hlt := h.heads c hc next hnext
        rw [← hzero] at hlt
        exact absurd hlt (Nat.not_lt_zero next)

end Directory
end BlockCache

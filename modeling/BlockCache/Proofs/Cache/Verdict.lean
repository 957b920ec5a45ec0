import BlockCache.Proofs.Cache.Agreement
import BlockCache.Proofs.Cache.Trace

/-!
# Verdict — what an audit says of a damaged cache

Links, heads, items, free blocks and the count of the items may have been changed at will, as long
as the tables keep their sizes. If every chain ends, an audit finds nothing exactly if the parts of
the cache agree. A chain that does not end is cut off after as many steps as there are entries, and
is reported unless it has come past every entry by then and no other chain has one: the entries of
such a ring are all met once, so it passes for a chain that ends.
-/

namespace BlockCache
namespace Cache

open Directory Extent

variable {c : Cache} {lists : Nat → List Nat}

/-! ## Chains that end -/

/-- An audit finds nothing exactly if the parts of the cache agree. It gives an answer if every free
block stops at a word and the machine has memory for the keys of all items that are counted. -/
theorem audit_finds_nothing_iff (hplanned : c.Planned)
    (hentries : c.layout.entryCount ≤ Directory.maxEntries)
    (hchains : ∀ b ≤ c.layout.binCount,
      Leads c.catalog.directory.entries (c.catalog.directory.headOf b) (lists b) none)
    (hsum : sumOf ((rows lists c.catalog.directory.binCount).dedup.map fun id =>
      (c.catalog.directory.item id).length) + c.catalog.free.freeBytes < Word.limit) :
    (c.audit = .ok none ↔ c.Agrees lists) ∧
      ((∀ b ∈ c.catalog.free.blocks, b.stop < Word.limit) → c.len ≤ grantedKeys →
        ∃ verdict, c.audit = .ok verdict) := by
  rw [← hplanned.bins_eq] at hchains
  exact audit_spec hplanned (trails_of_leads hchains) hentries hsum

/-- The cache of the smallest budget after two puts. -/
def paired : Cache :=
  { smallest with
    time := 2
    len := 2
    catalog := ⟨⟨#[some 0], none, #[⟨some 1, 1, 320, 16, 1, 0⟩, ⟨none, 2, 304, 16, 1, 1⟩]⟩,
      ⟨[⟨0, 304⟩], 336⟩⟩
    store := (smallest.store.overwrite 320 ⟨#[0]⟩).overwrite 304 ⟨#[0]⟩ }

/-- The link to the second item is lost. -/
def unhooked : Cache :=
  paired.withDirectory { paired.catalog.directory with
    entries := setLink paired.catalog.directory.entries 0 none }

/-- After the two puts an audit finds nothing, and after the damage it does. -/
theorem audit_finds_nothing_iff_unhooked :
    (∃ turns, smallest.run [.put 1 ⟨#[0]⟩, .put 2 ⟨#[0]⟩] = .ok (turns, paired)) ∧
      paired.audit = .ok none ∧ ∃ v, unhooked.audit = .ok (some v) := by
  have hputs : ∃ turns, smallest.run [.put 1 ⟨#[0]⟩, .put 2 ⟨#[0]⟩] = .ok (turns, paired) :=
    ⟨_, rfl⟩
  obtain ⟨turns, hrun⟩ := hputs
  obtain ⟨lists, htrace⟩ := Trace.of_run fresh_smallest hrun
  have hsound := htrace.sound
  refine ⟨⟨turns, hrun⟩, ?_, ?_⟩
  · exact (audit_finds_nothing_iff hsound.toPlanned (by decide) hsound.laid.spells.leads
      hsound.sumOf_met_lt).1.2 hsound.agrees
  · have hplanned : unhooked.Planned := ⟨rfl, rfl, rfl, rfl, hsound.inside⟩
    have hchains : ∀ b ≤ unhooked.layout.binCount, Leads unhooked.catalog.directory.entries
        (unhooked.catalog.directory.headOf b) (if b = 0 then [0] else []) none := by
      intro b hb
      obtain rfl | rfl : b = 0 ∨ b = 1 := Nat.le_one_iff_eq_zero_or_eq_one.1 hb
      · exact ⟨rfl, none, rfl, rfl⟩
      · rfl
    obtain ⟨hiff, hverdict⟩ := audit_finds_nothing_iff hplanned (by decide) hchains (by decide)
    obtain ⟨verdict, haudit⟩ := hverdict (by decide) (by decide)
    cases verdict with
    | none =>
        -- The second entry is on no chain.
        have honce := (hiff.1 haudit).once 1
        exact absurd honce (by decide)
    | some v => exact ⟨v, haudit⟩

/-! ## Chains that do not end -/

/-- A chain that does not end is reported, or goes through all entries with none left for another
chain, if the audit comes to follow the chains at all: it stops before at a free block that stops
beyond every word, and for want of memory for the keys. -/
theorem audit_of_endless (hplanned : c.Planned) (hlinked : c.catalog.directory.Linked) {b : Nat}
    (hb : b ≤ c.layout.binCount) (hendless : c.catalog.directory.Endless b) :
    c.catalog.directory.CoversAll b ∨ (∃ v, c.audit = .ok (some v)) ∨
      ((∃ e ∈ c.catalog.free.blocks, Word.limit ≤ e.stop) ∧ c.audit = .error .overflow) ∨
      (grantedKeys < c.len ∧ c.len ≤ addressableKeys ∧ c.audit = .error .refused) ∨
      (addressableKeys < c.len ∧ c.audit = .error .unaddressable) := by
  rw [← hplanned.bins_eq] at hb
  by_cases hnodup : (rows c.catalog.directory.met (c.catalog.directory.binCount + 1)).Nodup
  · exact Or.inl (hlinked.coversAll_of_nodup hb hendless hnodup)
  · rcases audit_of_not_nodup hplanned.bins_eq hlinked.trails hnodup with hreport | hstops
    · exact Or.inr (Or.inl hreport)
    · refine Or.inr (Or.inr ?_)
      cases hstops with
      | beyond e he hbeyond hstop => exact Or.inl ⟨⟨e, he, hbeyond⟩, hstop⟩
      | refused hmany hle hstop => exact Or.inr (Or.inl ⟨hmany, hle, hstop⟩)
      | unaddressable hmany hstop => exact Or.inr (Or.inr ⟨hmany, hstop⟩)

/-- The only bin and the spare chain both begin at an entry that is linked to itself. -/
def knotted : Cache :=
  { smallest with
    catalog := ⟨⟨#[some 0], some 0, #[{ next := some 0 }, { next := some 0 }]⟩,
      smallest.catalog.free⟩ }

theorem audit_of_endless_knotted : ∃ v, knotted.audit = .ok (some v) := by
  have hplanned : knotted.Planned := ⟨rfl, rfl, rfl, rfl, fresh_smallest.sound.1.inside⟩
  have hlinked : knotted.catalog.directory.Linked := linked_of_mem (by decide) (by decide)
  have hendless : knotted.catalog.directory.Endless 0 := endless_of_links (by decide) (by decide)
  rcases audit_of_endless hplanned hlinked (Nat.zero_le _) hendless with hcovers | hreport |
    ⟨⟨e, he, hbeyond⟩, _⟩ | ⟨hmany, _⟩ | ⟨hmany, _⟩
  · -- The spare chain has an entry as well.
    have hspare := hcovers.2 1 (Nat.le_refl 1) (by decide)
    cases hspare
  · exact hreport
  · obtain rfl := List.mem_singleton.1 he
    exact absurd hbeyond (by decide)
  · exact absurd hmany (by decide)
  · exact absurd hmany (by decide)

/-- Two items whose links make a ring, and all entries are on it. -/
def ringed : Cache :=
  { smallest with
    len := 2
    catalog := ⟨⟨#[some 0], none, #[⟨some 1, 1, 320, 16, 1, 0⟩, ⟨some 0, 2, 304, 16, 1, 1⟩]⟩,
      ⟨[⟨0, 304⟩], 336⟩⟩ }

theorem agrees_ringed : ringed.Agrees ringed.catalog.directory.met where
  once := perm_range_iff.1 (List.Perm.refl [0, 1])
  home := by decide
  keys := by decide
  measured := by
    simp only [Entry.measured_iff]
    decide
  len_eq := rfl
  aligned := by decide
  apart := List.pairwise_singleton _ _
  tiled := by
    intro x
    rw [← coverage_rows]
    change coverage [⟨320, 16⟩, ⟨304, 16⟩] x + coverage [⟨0, 304⟩] x = if x < 336 then 1 else 0
    simp only [coverage_cons, coverage_nil, mem_iff, Extent.stop]
    split_ifs <;> omega

/-- The ring is not reported. -/
theorem ring_passes_audit :
    ¬ ∀ (c : Cache) (b : Nat), c.Planned → c.layout.entryCount ≤ Directory.maxEntries →
      c.catalog.directory.Linked → b ≤ c.layout.binCount → c.catalog.directory.Endless b →
      c.audit ≠ .ok none := by
  intro hall
  have hplanned : ringed.Planned := ⟨rfl, rfl, rfl, rfl, fresh_smallest.sound.1.inside⟩
  have hlinked : ringed.catalog.directory.Linked := linked_of_mem (by decide) (by decide)
  refine hall ringed 0 hplanned (by decide) hlinked (Nat.zero_le _)
    (endless_of_links (by decide) (by decide)) ?_
  exact (audit_spec hplanned hlinked.trails (by decide) (by decide)).1.2 agrees_ringed

end Cache
end BlockCache

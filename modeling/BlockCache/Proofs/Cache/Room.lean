import BlockCache.Proofs.Cache.Counting
import BlockCache.Proofs.Cache.Order
import Mathlib.Order.Bounds.Basic

/-!
# Room — how many items a put evicts

* `c.HasRoom length` — some free block of `c` has `length` bytes;
* `c.roomAfter length` — the numbers of evictions in a row after which there is room.

A put evicts for space first and for an entry afterwards. The first loop stops as soon as there is
room, so it takes the least number of `c.roomAfter length`. An eviction also leaves an entry spare,
so the second loop evicts one item at most (`Sound.evicts_for_entry_cases`), and none if the first
loop has evicted any. What it evicts is what would have been evicted before the space was taken
(`Sound.evict_of_sameDirectory`). So all that a put evicts is what evictions in a row take, from the
cache on that has dropped the old item of the key (`Reachable.put_evicts_least`).
-/

namespace BlockCache
namespace Cache

variable {c c' : Cache} {lists : Nat → List Nat} {held : List Extent} {key k : UInt32}
  {data : ByteArray} {length : Nat}

/-! ## Evicting for space -/

/-- Some free block has `length` bytes. -/
def HasRoom (c : Cache) (length : Nat) : Prop :=
  ∃ b ∈ c.catalog.free.blocks, length ≤ b.length

/-- The numbers of evictions in a row after which some free block has `length` bytes. -/
def roomAfter (c : Cache) (length : Nat) : Set Nat :=
  {n | ∃ es c', EvictsWhile (fun _ => True) c es c' ∧ es.length = n ∧ c'.HasRoom length}

theorem hasRoom_iff : c.HasRoom length ↔ c.catalog.free.allocate length ≠ none := by
  rw [Ne, FreeList.allocate_eq_none_iff, HasRoom]
  push Not
  rfl

/-- Who evicts while there is no space, and then has some, evicts no more than it takes. -/
theorem EvictsWhile.isLeast_roomAfter {es : List Eviction}
    (h : EvictsWhile (fun c => c.catalog.free.allocate length = none) c es c')
    (hroom : c'.HasRoom length) : IsLeast (c.roomAfter length) es.length := by
  refine ⟨⟨es, c', h.mono fun _ _ => trivial, rfl, hroom⟩, ?_⟩
  rintro n ⟨es', c'', h', rfl, hroom'⟩
  exact h.length_le h' (hasRoom_iff.1 hroom')

/-! ## Evicting for an entry -/

/-- The victim depends on the directory only. -/
theorem Sound.evict_of_sameDirectory {held' : List Extent} {e : Eviction} {events : List Event}
    {c₁ : Cache} (h : c.Sound lists [] held) (h' : c'.Sound lists [] held')
    (hsame : c'.catalog.directory = c.catalog.directory)
    (hevict : c'.evict = .ok ⟨some e, c₁, events⟩) :
    ∃ c₂, c.evict = .ok ⟨some e, c₂, [.evicted e]⟩ := by
  obtain ⟨_, hbin, hmem, hnamed, _, _, _, hforemost⟩ := h'.of_evict hevict
  rw [hsame] at hbin hnamed hforemost
  rcases h.evict_spec with ⟨_, hempty⟩ | ⟨e', c₂, hok, _, _, hnamed', _, _, _, hforemost'⟩
  · have hrow : e.id ∈ rows lists c.catalog.directory.binCount := mem_rows.2 ⟨e.bin, hbin, hmem⟩
    rw [hempty] at hrow
    cases hrow
  · have hunique := hforemost.unique hforemost'
    simp only [Candidate.mk.injEq] at hunique
    rw [← hunique.1, ← hunique.2.1, ← hnamed] at hnamed'
    exact ⟨c₂, hnamed' ▸ hok⟩

/-- One item goes for an entry if all entries are used, and none otherwise. -/
theorem Sound.evicts_for_entry_cases {es : List Eviction} {id : Nat} {c'' : Cache}
    (h : c.Sound lists [] held) (hes : EvictsWhile (fun c => c.claim = .ok (none, c)) c es c')
    (hclaim : c'.claim = .ok (some id, c'')) :
    (c.len ≠ c.catalog.directory.capacity ∧ es = []) ∨
      c.len = c.catalog.directory.capacity ∧ ∃ e c₁, es = [e] ∧
        c.evict = .ok ⟨some e, c₁, [.evicted e]⟩ := by
  cases hes with
  | stop =>
      refine Or.inl ⟨fun hfull => ?_, rfl⟩
      rw [h.claim_eq_none_iff.2 hfull] at hclaim
      cases hclaim
  | @evict _ c₁ _ e rest hnone hevict hrest =>
      have hfull := h.claim_eq_none_iff.1 hnone
      refine Or.inr ⟨hfull, e, c₁, ?_, hevict⟩
      cases hrest with
      | stop => rfl
      | evict hnone' _ _ =>
          -- The entry of the item that went is spare.
          obtain ⟨_, hsound, hkeeps, _, _, hlen⟩ :=
            (EvictsWhile.evict (p := fun _ => True) trivial hevict (.stop c₁)).spec h
          have hfull' := hsound.claim_eq_none_iff.1 hnone'
          have hcapacity := hkeeps.items.capacity_eq
          rw [List.length_singleton] at hlen
          omega

/-! ## Evicting in a put -/

namespace Course

variable (p : c.Course key data length)

theorem hasRoom_roomy : p.roomy.HasRoom length := by
  rw [hasRoom_iff, p.allocate_eq]
  exact Option.some_ne_none _

/-- If nothing has gone for space, the item that goes for an entry is the one that an eviction would
have taken before. -/
theorem evict_dropped {e : Eviction} {c₁ : Cache} {events : List Event}
    (h : c.Sound lists [] []) (hpos : 0 < data.size)
    (hround : roundToGranule data.size = some length) (hzero : p.spaceVictims = [])
    (hevict : p.written.evict = .ok ⟨some e, c₁, events⟩) :
    ∃ c₂, p.dropped.evict = .ok ⟨some e, c₂, [.evicted e]⟩ := by
  obtain ⟨_, hsound₀, _⟩ := p.dropped_spec h
  have hroomy : p.roomy = p.dropped := by
    have hspace := p.evicts_for_space
    rw [hzero] at hspace
    generalize p.roomy = roomy at hspace
    cases hspace
    rfl
  have hsame : p.written.catalog.directory = p.dropped.catalog.directory :=
    congrArg (·.catalog.directory) hroomy
  have hwritten := (p.written_spec (hroomy ▸ hsound₀) hpos hround).1
  exact hsound₀.evict_of_sameDirectory hwritten hsame hevict

/-- What a put evicts is what evictions in a row take from the cache without the old item: no more
than it takes to make room, or one item if there is room but no entry. -/
theorem victims_spec (h : c.Sound lists [] []) (hpos : 0 < data.size)
    (hround : roundToGranule data.size = some length) :
    ∃ least s, IsLeast (p.dropped.roomAfter length) least ∧
      EvictsWhile (fun _ => True) p.dropped p.victims s ∧
      p.victims.length =
        if least = 0 ∧ p.dropped.catalog.directory.spare = none then 1 else least := by
  obtain ⟨lists₀, hsound₀, hkeeps₀, _⟩ := p.dropped_spec h
  obtain ⟨lists₁, hsound₁, hkeeps₁, _, _, hlen₁⟩ := p.evicts_for_space.spec hsound₀
  obtain ⟨hwritten, _⟩ := p.written_spec hsound₁ hpos hround
  have hspare : p.dropped.catalog.directory.spare = none ↔
      p.dropped.len = p.dropped.catalog.directory.capacity := hsound₀.spare_eq_none_iff
  have hcapacity : p.written.catalog.directory.capacity =
      p.dropped.catalog.directory.capacity := hkeeps₁.items.capacity_eq
  have hlen : p.written.len + p.spaceVictims.length = p.dropped.len := hlen₁
  have hle : p.dropped.len ≤ p.dropped.catalog.directory.capacity :=
    hsound₀.len_add_spare ▸ Nat.le_add_right _ _
  refine ⟨p.spaceVictims.length, ?_⟩
  rcases hwritten.evicts_for_entry_cases p.evicts_for_entry p.claim_eq with ⟨hspareLeft, hnil⟩ |
    ⟨hfull, e, c₁, hsingle, hevict⟩
  · refine ⟨p.roomy, p.evicts_for_space.isLeast_roomAfter p.hasRoom_roomy, ?_, ?_⟩
    · rw [victims, hnil, List.append_nil]
      exact p.evicts_for_space.mono fun _ _ => trivial
    · rw [victims, hnil, List.append_nil, if_neg]
      rintro ⟨hzero, hnone⟩
      rw [hspare] at hnone
      omega
  · -- Nothing has gone for space, so the victim is the one of the cache before.
    have hzero : p.spaceVictims = [] := List.length_eq_zero_iff.1 (by omega)
    obtain ⟨c₂, hevict₀⟩ := p.evict_dropped h hpos hround hzero hevict
    refine ⟨c₂, p.evicts_for_space.isLeast_roomAfter p.hasRoom_roomy, ?_, ?_⟩
    · rw [victims, hzero, hsingle, List.nil_append]
      exact .evict trivial hevict₀ (.stop c₂)
    · have hnone : p.dropped.catalog.directory.spare = none := by
        rw [hspare]
        omega
      rw [victims, hzero, hsingle, if_pos ⟨rfl, hnone⟩]
      rfl

end Course

/-- After a put its key is there, and whatever was there and was not evicted. -/
theorem Puts.contains_iff {es : List Eviction} {id : Nat} {extent : Extent}
    {lists' : Nat → List Nat} (h : c.Puts lists key data es id extent c' lists')
    (hc : c.Sound lists [] []) :
    c'.contains k = .ok true ↔
      k = key ∨ c.contains k = .ok true ∧ ∀ e ∈ es, e.key ≠ k := by
  rw [h.sound.contains_iff_holds, hc.contains_iff_holds]
  constructor
  · rintro ⟨d, hd⟩
    rcases (h.holds_iff hc).1 hd with ⟨hkey, _⟩ | ⟨_, hholds, hothers⟩
    · exact Or.inl hkey
    · exact Or.inr ⟨⟨d, hholds⟩, hothers⟩
  · rintro (rfl | ⟨⟨d, hholds⟩, hothers⟩)
    · exact ⟨data, (h.holds_iff hc).2 (Or.inl ⟨rfl, rfl⟩)⟩
    · by_cases hkey : k = key
      · exact ⟨data, (h.holds_iff hc).2 (Or.inl ⟨hkey, rfl⟩)⟩
      · exact ⟨d, (h.holds_iff hc).2 (Or.inr ⟨hkey, hholds, hothers⟩)⟩

/-- Dropping the old item of a key takes away this key alone. -/
theorem Sound.contains_dropped_iff {lists' : Nat → List Nat} (h : c.Sound lists [] [])
    (h' : c'.Sound lists' [] [])
    (hkeeps : c.Keeps lists (fun id => (c.catalog.directory.item id).key ≠ key) c' lists') :
    c'.contains k = .ok true ↔ k ≠ key ∧ c.contains k = .ok true := by
  rw [h.contains_iff, h'.contains_iff]
  constructor
  · rintro ⟨id, hid, rfl⟩
    obtain ⟨hrow, hne⟩ := hkeeps.mem_rows_iff.1 hid
    rw [hkeeps.items.item_eq]
    exact ⟨hne, id, hrow, rfl⟩
  · rintro ⟨hne, id, hrow, rfl⟩
    refine ⟨id, hkeeps.mem_rows_iff.2 ⟨hrow, hne⟩, ?_⟩
    rw [hkeeps.items.item_eq]

/-- A put that is not refused first drops the old item of its key, which is neither counted nor
reported. From then on it evicts one item after the other, no more than it takes until some free
block has room for the bytes; if there is room at once but no entry is spare, it evicts one. Nothing
else leaves the cache. -/
theorem Reachable.put_evicts_least (h : c.Reachable) (key : UInt32) (data : ByteArray)
    (hpos : 0 < data.size) (hle : data.size ≤ c.layout.storeLength) :
    ∃ found s₀ length least es s₁,
      c.forget key = .ok (found, s₀) ∧ c.contains key = .ok found ∧
      s₀.len + found.toNat = c.len ∧ s₀.counters = c.counters ∧
      (∀ k, s₀.contains k = .ok true ↔ k ≠ key ∧ c.contains k = .ok true) ∧
      roundToGranule data.size = some length ∧
      IsLeast (s₀.roomAfter length) least ∧
      EvictsWhile (fun _ => True) s₀ es s₁ ∧
      es.length = (if least = 0 ∧ s₀.catalog.directory.spare = none then 1 else least) ∧
      (∀ e ∈ es, e.key ≠ key ∧ c.contains e.key = .ok true) ∧
      (c.time + 1 < Word.limit →
        ∃ c', c.put key data = .ok ⟨.ok data, c', es.map .evicted⟩ ∧
          c'.counters =
            ⟨c.counters.hits, c.counters.misses, c.counters.evictions + es.length⟩ ∧
          c'.len + es.length = s₀.len + 1 ∧
          ∀ k, c'.contains k = .ok true ↔
            k = key ∨ c.contains k = .ok true ∧ ∀ e ∈ es, e.key ≠ k) ∧
      (Word.limit ≤ c.time + 1 →
        ∃ i, c.put key data = .error i ∧ i.fault = .overflow ∧ i.len + es.length = s₀.len) := by
  obtain ⟨lists, hsound⟩ := h.sound
  obtain ⟨length, hround, hput, ⟨p⟩⟩ := hsound.exists_put_course key hpos hle
  obtain ⟨hfound, hlen⟩ := forget_found p.forget_eq
  obtain ⟨lists₀, hsound₀, hkeeps₀, hcounters⟩ := p.dropped_spec hsound
  obtain ⟨_, _, _, _, hnames, hothers, _⟩ := p.prepared_spec hsound hpos hround
  obtain ⟨least, s₁, hleast, hevicts, hcount⟩ := p.victims_spec hsound hpos hround
  refine ⟨p.found, p.dropped, length, least, p.victims, s₁, p.forget_eq, hfound, hlen, hcounters,
    fun k => hsound.contains_dropped_iff hsound₀ hkeeps₀, hround, hleast, hevicts, hcount,
    fun e he => ⟨hothers e he, ?_⟩, fun htime => ?_, fun htime => ?_⟩
  · obtain ⟨hbin, hmem, hnamed⟩ := hnames e he
    have hrow := mem_rows.2 ⟨e.bin, hbin, hmem⟩
    exact hsound.contains_iff.2 ⟨e.id, hrow, congrArg (·.key) hnamed.symm⟩
  · obtain ⟨c', lists', hinsert, hputs, hlen'⟩ := p.insert_spec hsound htime hpos hround
    have hok := hput.trans hinsert
    refine ⟨c', hok, ?_, hlen', fun k => hputs.contains_iff hsound⟩
    have hcounts : c.Counts (p.victims.map .evicted) c' := put_counts hok
    rw [Counts, evictionsIn_map] at hcounts
    exact hcounts
  · obtain ⟨i, hinsert, hfault, hlen'⟩ := p.insert_overflow hsound htime hpos hround
    exact ⟨i, hput.trans hinsert, hfault, hlen'⟩

/-- There is room for one more byte, but both entries are used, so one item has to go. -/
theorem Reachable.put_evicts_least_no_entry :
    ∃ turns c c', ∃ es : List Eviction,
      smallest.run [.put 1 ⟨#[1]⟩, .put 2 ⟨#[1]⟩] = .ok (turns, c) ∧
      IsLeast (c.roomAfter 16) 0 ∧ c.catalog.directory.spare = none ∧ es.length = 1 ∧
      c.put 3 ⟨#[1]⟩ = .ok ⟨.ok ⟨#[1]⟩, c', es.map .evicted⟩ := by
  obtain ⟨turns, c, hrun, htime, hlayout, hspare, hforget, hround, hblocks⟩ :
      ∃ turns c, smallest.run [.put 1 ⟨#[1]⟩, .put 2 ⟨#[1]⟩] = .ok (turns, c) ∧ c.time = 2 ∧
        c.layout = smallest.layout ∧ c.catalog.directory.spare = none ∧
        c.forget 3 = .ok (false, c) ∧ roundToGranule (ByteArray.size ⟨#[1]⟩) = some 16 ∧
        c.catalog.free.blocks = [⟨0, 304⟩] :=
    ⟨_, _, rfl, rfl, rfl, rfl, rfl, rfl, rfl⟩
  have hle : ByteArray.size ⟨#[1]⟩ ≤ c.layout.storeLength := by
    rw [hlayout]
    decide
  obtain ⟨_, _, _, least, es, _, hforget', _, _, _, _, hround', hleast, _, hcount, _, hput, _⟩ :=
    Reachable.put_evicts_least ⟨smallest, _, turns, fresh_smallest, hrun⟩ 3 ⟨#[1]⟩ (by decide) hle
  rw [hforget] at hforget'
  cases hforget'
  rw [hround] at hround'
  cases hround'
  have hroom : c.HasRoom 16 := ⟨⟨0, 304⟩, by simp [hblocks], by decide⟩
  obtain rfl : least = 0 := Nat.le_zero.1 (hleast.2 ⟨[], c, .stop c, rfl, hroom⟩)
  rw [if_pos ⟨rfl, hspare⟩] at hcount
  obtain ⟨c', hok, _⟩ := hput (by rw [htime]; decide)
  exact ⟨turns, c, c', es, hrun, hleast, hspare, hcount, hok⟩

end Cache
end BlockCache

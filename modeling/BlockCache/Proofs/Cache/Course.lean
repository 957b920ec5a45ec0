import BlockCache.Cache.Access
import BlockCache.Proofs.Cache.Evict

/-!
# Course — how a put gets to its last step

A put drops the old item of its key, evicts until there is space, writes the bytes into it, and
evicts until there is a spare entry. `c.Course key data length` is the record of this: the caches
that the put passes through, and what is evicted between them. Every put that is not refused has one
(`Sound.exists_course`).

In between, space is held that no entry stands for and an entry is loose that is on no chain;
`Course.prepared_spec` leads to the last such state, from which only the clock can keep the put from
succeeding.
-/

namespace BlockCache
namespace Cache

variable {c c' : Cache} {lists : Nat → List Nat} {loose : List Nat} {held : List Extent}
  {key : UInt32} {data : ByteArray} {length : Nat}

/-! ## Dropping the old item -/

/-- The item that is dropped is the one that the cache contains for the key. -/
theorem forget_found {found : Bool} (h : c.forget key = .ok (found, c')) :
    c.contains key = .ok found ∧ c'.len + found.toNat = c.len := by
  obtain ⟨place, hfind, h⟩ := eq_ok_of_bind h
  have hcontains : c.contains key = .ok place.isSome := by
    simp only [contains, eq_ok_of_during hfind, ok_bind]
    rfl
  cases place with
  | none =>
      cases h
      exact ⟨hcontains, rfl⟩
  | some place =>
      obtain ⟨k, _, h⟩ := eq_ok_of_bind h
      obtain ⟨hlen, h⟩ := eq_ok_of_guard h
      cases h
      exact ⟨hcontains, Nat.sub_add_cancel (Nat.pos_of_ne_zero hlen)⟩

/-! ## Writing into the space -/

/-- Bytes fit the store where they fit a part of it after rounding. -/
theorem Sound.fits {extent : Extent} (h : c.Sound lists loose held)
    (hwhole : extent.Whole c.layout.storeLength)
    (hround : roundToGranule data.size = some extent.length) :
    extent.offset + data.size ≤ c.store.length := by
  have hle := (roundToGranule_eq_some hround).1
  calc
    extent.offset + data.size ≤ extent.offset + extent.length := Nat.add_le_add_left hle _
    _ ≤ c.layout.storeLength := hwhole.stop_le
    _ = c.store.length := h.store_eq.symm

/-- The space that is found is held from then on, and the bytes are written into it. -/
theorem Sound.write_spec {offset : Nat} {f : FreeList} (h : c.Sound lists [] [])
    (hpos : 0 < data.size) (hround : roundToGranule data.size = some length)
    (htake : c.catalog.free.allocate length = some (offset, f)) :
    (c.withFree f).write offset data =
        .ok { c.withFree f with store := c.store.overwrite offset data } ∧
      Sound { c.withFree f with store := c.store.overwrite offset data } lists []
        [⟨offset, length⟩] ∧
      Extent.Whole c.layout.storeLength ⟨offset, length⟩ := by
  obtain ⟨hle, _, hdvd⟩ := roundToGranule_eq_some hround
  have hwhole := FreeList.whole_allocate h.laid.tidy.whole (Nat.lt_of_lt_of_le hpos hle) hdvd htake
  rw [h.free_eq] at hwhole
  have hfits : offset + data.size ≤ c.store.length := h.fits hwhole hround
  have hheld : (c.withFree f).Sound lists [] [⟨offset, length⟩] :=
    h.withCatalog (h.laid.allocate_spec hdvd htake) rfl rfl (FreeList.allocate_storeLength htake)
      h.len_eq h.time_lt h.counted_le
  exact ⟨if_pos (decide_eq_true hfits), { hheld with inside := hheld.inside.overwrite hfits },
    hwhole⟩

/-! ## The record -/

structure Course (c : Cache) (key : UInt32) (data : ByteArray) (length : Nat) where
  /-- Whether the key had an item. -/
  found : Bool
  /-- The cache without that item. -/
  dropped : Cache
  spaceVictims : List Eviction
  /-- The cache that has room for the bytes. -/
  roomy : Cache
  offset : Nat
  /-- The free space that is left then. -/
  free : FreeList
  entryVictims : List Eviction
  /-- The cache that has a spare entry. -/
  ready : Cache
  id : Nat
  /-- The cache that has both set apart. -/
  prepared : Cache
  forget_eq : c.forget key = .ok (found, dropped)
  evicts_for_space :
    EvictsWhile (fun c => c.catalog.free.allocate length = none) dropped spaceVictims roomy
  allocate_eq : roomy.catalog.free.allocate length = some (offset, free)
  evicts_for_entry : EvictsWhile (fun c => c.claim = .ok (none, c))
    { roomy.withFree free with store := roomy.store.overwrite offset data } entryVictims ready
  claim_eq : ready.claim = .ok (some id, prepared)
  insert_eq : c.insert key data length = (do
    let c ← prepared.enter id key ⟨offset, length⟩ data.size
    let stored ← c.during (c.store.read offset data.size)
    return ⟨.ok stored, c, (spaceVictims ++ entryVictims).map .evicted⟩)

/-- A put whose bytes fit the store finds space and an entry. -/
theorem Sound.exists_course (h : c.Sound lists [] []) (key : UInt32) (hpos : 0 < data.size)
    (hround : roundToGranule data.size = some length) (hle : length ≤ c.layout.storeLength) :
    Nonempty (c.Course key data length) := by
  obtain ⟨found, c₀, lists₀, hforget, hsound₀, hkeeps₀, _⟩ := h.forget_spec key
  obtain ⟨es₁, c₁, offset, f, hspace, htake, hallocate⟩ :=
    hsound₀.allocateWithin_spec (Nat.le_refl _) (hkeeps₀.layout_eq ▸ hle)
  obtain ⟨lists₁, hsound₁, _⟩ := hspace.spec hsound₀
  obtain ⟨hwrite, hsound₂, _⟩ := hsound₁.write_spec hpos hround htake
  obtain ⟨es₂, c₂, id, d', hentry, _, hclaim, hacquire⟩ := hsound₂.acquire_spec
  refine ⟨⟨found, c₀, es₁, c₁, offset, f, es₂, c₂, id, _, hforget, hspace, htake, hentry, hclaim,
    ?_⟩⟩
  simp only [insert, hforget, allocate, hallocate, hwrite, hacquire, ok_bind, List.map_append]

/-! ## What happens on the way -/

/-- The items that a put of `key` leaves when it reports `es`. -/
def Survives (c : Cache) (key : UInt32) (es : List Eviction) (id : Nat) : Prop :=
  (c.catalog.directory.item id).key ≠ key ∧ id ∉ es.map (·.id)

instance (c : Cache) (key : UInt32) (es : List Eviction) : DecidablePred (c.Survives key es) :=
  fun _ => inferInstanceAs (Decidable (_ ∧ _))

/-- The lists of a cache that has lost its item of `key`. -/
def without (c : Cache) (key : UInt32) (lists : Nat → List Nat) (b : Nat) : List Nat :=
  (lists b).filter fun id => (c.catalog.directory.item id).key ≠ key

namespace Course

variable (p : c.Course key data length)

def written : Cache :=
  { p.roomy.withFree p.free with store := p.roomy.store.overwrite p.offset data }

def extent : Extent :=
  ⟨p.offset, length⟩

/-- All that is evicted, in order. -/
def victims : List Eviction :=
  p.spaceVictims ++ p.entryVictims

theorem dropped_spec (h : c.Sound lists loose held) :
    ∃ lists₀, p.dropped.Sound lists₀ loose held ∧
      c.Keeps lists (fun id => (c.catalog.directory.item id).key ≠ key) p.dropped lists₀ ∧
      p.dropped.counters = c.counters :=
  h.of_forget p.forget_eq

/-- The bytes are in the store before an entry is looked for. -/
theorem written_spec (h : p.roomy.Sound lists [] []) (hpos : 0 < data.size)
    (hround : roundToGranule data.size = some length) :
    p.written.Sound lists [] [p.extent] ∧ p.extent.Whole p.roomy.layout.storeLength :=
  (h.write_spec hpos hround p.allocate_eq).2

/-- Space and an entry are set apart, and the bytes are written; what is left to do is to link the
entry. -/
theorem prepared_spec (h : c.Sound lists [] []) (hpos : 0 < data.size)
    (hround : roundToGranule data.size = some length) :
    ∃ lists', p.prepared.Sound lists' [p.id] [p.extent] ∧
      p.extent.Whole c.layout.storeLength ∧
      Keeps { c with store := c.store.overwrite p.offset data } lists (c.Survives key p.victims)
        p.prepared lists' ∧
      c.Names lists p.victims ∧ (∀ e ∈ p.victims, e.key ≠ key) ∧
      c.catalog.directory.Sheds (c.without key lists) p.victims ∧
      p.prepared.len + p.victims.length = p.dropped.len := by
  obtain ⟨lists₀, hsound₀, hkeeps₀, _⟩ := p.dropped_spec h
  obtain ⟨lists₁, hsound₁, hkeeps₁, hnames₁, hsheds₁, hlen₁⟩ := p.evicts_for_space.spec hsound₀
  obtain ⟨hsound₂, hwhole⟩ := p.written_spec hsound₁ hpos hround
  obtain ⟨lists₃, hsound₃, hkeeps₃, hnames₃, hsheds₃, hlen₃⟩ := p.evicts_for_entry.spec hsound₂
  obtain ⟨lists₄, hsound₄, hkeeps₄, hlen₄⟩ := hsound₃.of_claim p.claim_eq
  -- What is evicted on the way was an item of `c` and had another key.
  have hkeeps₀₁ := hkeeps₀.trans hkeeps₁
  obtain ⟨hnamesOld₁, hkept₁⟩ := hkeeps₀.names hnames₁
  obtain ⟨hnamesOld₃, hkept₃⟩ :=
    hkeeps₀₁.names (show p.roomy.Names lists₁ p.entryVictims from hnames₃)
  have hstore : p.roomy.store = c.store := hkeeps₀₁.store_eq
  refine ⟨lists₄, hsound₄, hkeeps₀₁.layout_eq ▸ hwhole, ?_, ?_, ?_, ?_, ?_⟩
  · rw [hstore] at hkeeps₃
    have hkeeps₂ : c.Keeps lists _ (p.roomy.withFree p.free) lists₁ := { hkeeps₀₁ with }
    refine (((hkeeps₂.withStore _).trans hkeeps₃).trans hkeeps₄).congr fun x => ?_
    simp only [Survives, victims, List.map_append, List.mem_append]
    tauto
  · exact List.forall_mem_append.2 ⟨hnamesOld₁, hnamesOld₃⟩
  · refine List.forall_mem_append.2 ⟨fun e he => ?_, fun e he => ?_⟩
    · rw [(hnamesOld₁ e he).2.2]
      exact hkept₁ e he
    · rw [(hnamesOld₃ e he).2.2]
      exact (hkept₃ e he).1
  · refine (hkeeps₀.sheds hsheds₁).append
      (hkeeps₀₁.sheds (show p.roomy.catalog.directory.Sheds lists₁ p.entryVictims from hsheds₃))
      fun b _ => ?_
    rw [List.filter_filter]
    exact List.filter_congr fun x _ => Bool.eq_iff_iff.2 (by simp [and_comm])
  · have hwritten : p.roomy.len = p.ready.len + p.entryVictims.length := hlen₃.symm
    rw [victims, List.length_append]
    omega

end Course
end Cache
end BlockCache

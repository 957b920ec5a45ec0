import BlockCache.Proofs.Cache.Recency

/-!
# Frame — what a put and a lookup leave alone

* `c.FramesPut key data es id extent c'` — a put has gone from `c` to `c'` and evicted `es`, and
  whatever it had no need to touch is as it was;
* `d.stamp id now` — the directory `d` with the time of one entry set.

A put unlinks entries, retires and claims them, gives space back and takes it, and links an entry
again. What all of this comes to for one item, one bin or one byte is read off `Puts`. A lookup that
finds an item stamps its entry, and a lookup that finds none touches no entry (`get_cases`).
-/

namespace BlockCache

/-- The directory with the time of one entry set. -/
def Directory.stamp (d : Directory) (id now : Nat) : Directory :=
  { d with entries := d.entries.modify id fun e => { e with time := now } }

namespace Cache

variable {c c' : Cache} {lists lists' : Nat → List Nat} {key : UInt32} {data : ByteArray}
  {es : List Eviction} {id : Nat} {extent : Extent}

/-! ## Putting -/

/-- A put of `data` under `key` has gone from `c` to `c'`: it has evicted `es` and given the new
item the entry `id` and the space `extent`. -/
structure FramesPut (c : Cache) (key : UInt32) (data : ByteArray) (es : List Eviction) (id : Nat)
    (extent : Extent) (c' : Cache) : Prop where
  config_eq : c'.config = c.config
  layout_eq : c'.layout = c.layout
  /-- What is evicted were items of other keys. -/
  evicted : ∀ e ∈ es, c.Resident e.id ∧ e = c.catalog.directory.evictionOf e.bin e.id ∧ e.key ≠ key
  /-- The new item has the bytes of its extent rounded up to granules. -/
  placed : c'.Resident id ∧ c'.catalog.directory.item id = c.newEntry key extent data.size ∧
    roundToGranule data.size = some extent.length ∧ extent.stop ≤ c.layout.storeLength
  /-- An item of another key that is not evicted keeps its entry with all that it holds, and its
  bytes. -/
  survivor : ∀ x, c.Resident x → c.Survives key es x →
    c'.Resident x ∧ x ≠ id ∧ c'.catalog.directory.item x = c.catalog.directory.item x ∧
    c'.store.read (c.catalog.directory.item x).offset (c.catalog.directory.item x).dataLength =
      c.store.read (c.catalog.directory.item x).offset (c.catalog.directory.item x).dataLength
  /-- Every bin keeps its survivors in their order, and only one bin has the new item at its end. -/
  chains : ∀ b < c.layout.binCount, ∃ ids, c.catalog.directory.chain b = .ok ids ∧
    c'.catalog.directory.chain b = .ok (ids.filter (c.Survives key es) ++
      if b = c.catalog.directory.binOf key then [id] else [])
  /-- The new space is none of a survivor. -/
  apart : ∀ x, c.Resident x → c.Survives key es x →
    ∀ y ∈ extent, y ∉ (c.catalog.directory.item x).extent
  window_eq : c'.store = { c.store with memory := c'.store.memory }
  /-- A byte that changes is a byte of the new item. -/
  memory : ∀ y, c'.store.memory.data[y]? ≠ c.store.memory.data[y]? →
    c.store.start + extent.offset ≤ y ∧ y < c.store.start + extent.offset + data.size

theorem Puts.framesPut (h : c.Puts lists key data es id extent c' lists')
    (hc : c.Sound lists [] []) : c.FramesPut key data es id extent c' := by
  have hnew : c'.Resident id := h.sound.resident_iff.2 ((h.mem_rows_iff hc).2 (Or.inr rfl))
  refine {
    config_eq := h.config_eq
    layout_eq := h.layout_eq
    evicted := ?evicted
    placed := ⟨hnew, h.item_self, h.rounded, h.whole.stop_le⟩
    survivor := ?survivor
    chains := ?chains
    apart := ?apart
    window_eq := ?window
    memory := ?memory }
  case evicted =>
    intro e he
    obtain ⟨hbin, hmem, hnamed⟩ := h.names e he
    exact ⟨hc.resident_iff.2 (mem_rows.2 ⟨e.bin, hbin, hmem⟩), hnamed, h.others e he⟩
  case survivor =>
    intro x hx hstays
    rw [hc.resident_iff] at hx
    exact ⟨h.sound.resident_iff.2 ((h.mem_rows_iff hc).2 (Or.inl ⟨hx, hstays⟩)),
      (h.fresh x hx hstays).1, h.item_of_survives hx hstays, h.read_of_survives hc hx hstays⟩
  case chains =>
    intro b hb
    rw [← hc.bins_eq] at hb
    have hb' : b ≤ c'.catalog.directory.binCount := h.binCount_eq ▸ Nat.le_of_lt hb
    refine ⟨lists b, hc.laid.spells.chain_eq (Nat.le_of_lt hb), ?_⟩
    rw [h.sound.laid.spells.chain_eq hb', h.bins b hb]
  case apart =>
    intro x hx hstays
    exact (h.fresh x (hc.resident_iff.1 hx) hstays).2
  case window =>
    rw [h.store_eq]
    rfl
  case memory =>
    intro y hy
    by_contra hout
    rw [h.store_eq] at hy
    exact hy (Region.get_overwrite_of_apart hc.inside (h.fits hc) (by omega))

/-! ## Looking up -/

theorem adjust_eq_ok {d d' : Directory} {f : Entry → Entry} (h : d.adjust id f = .ok d') :
    d' = { d with entries := d.entries.modify id f } := by
  unfold Directory.adjust at h
  split_ifs at h
  cases h
  rfl

/-- A lookup counts a miss, or it stamps the entry that it finds and counts a hit. -/
theorem get_cases {o : Outcome (Option ByteArray)} (h : c.get key = .ok o) :
    (c.catalog.directory.find key = .ok none ∧
      o = ⟨none, c.afterMiss, []⟩) ∨
    ∃ place bytes, c.catalog.directory.find key = .ok (some place) ∧
      o = ⟨some bytes, c.afterHit (c.catalog.directory.stamp place.id c.time), []⟩ := by
  obtain ⟨place, hfind, h⟩ := eq_ok_of_bind h
  have hfind := eq_ok_of_during hfind
  cases place with
  | none =>
      obtain ⟨counters, hcounted, h⟩ := eq_ok_of_bind h
      cases h
      rw [Counters.miss_eq_ok (eq_ok_of_during hcounted)]
      exact Or.inl ⟨hfind, rfl⟩
  | some place =>
      obtain ⟨⟨now, c₁⟩, htick, h⟩ := eq_ok_of_bind h
      obtain ⟨d, hadjust, h⟩ := eq_ok_of_bind h
      obtain ⟨e, _, h⟩ := eq_ok_of_bind h
      obtain ⟨counters, hcounted, h⟩ := eq_ok_of_bind h
      obtain ⟨bytes, _, h⟩ := eq_ok_of_bind h
      cases h
      obtain ⟨rfl, rfl⟩ := tick_eq_ok htick
      obtain rfl := adjust_eq_ok (eq_ok_of_during hadjust)
      rw [Counters.hit_eq_ok (eq_ok_of_during hcounted)]
      exact Or.inr ⟨place, bytes, hfind, rfl⟩

/-- A put that stores its item leaves the other items where they are, but for those that it evicts:
their entries, their bytes, and their order in the bins. A lookup that finds an item changes the
time of its entry, the clock and the count of hits; one that finds none changes the count of misses.
-/
theorem Reachable.put_get_frame (h : c.Reachable) (key : UInt32) :
    (∀ data stored c' events, c.put key data = .ok ⟨.ok stored, c', events⟩ →
      ∃ es id extent, events = es.map .evicted ∧ c.FramesPut key data es id extent c') ∧
    (∀ bytes c' events, c.get key = .ok ⟨some bytes, c', events⟩ →
      events = [] ∧ ∃ id, c.Resident id ∧ (c.catalog.directory.item id).key = key ∧
        c' = { c.withDirectory (c.catalog.directory.stamp id c.time) with
          time := c.time + 1
          counters.hits := c.counters.hits + 1 }) ∧
    ∀ c' events, c.get key = .ok ⟨none, c', events⟩ →
      events = [] ∧ c' = { c with counters.misses := c.counters.misses + 1 } := by
  obtain ⟨lists, hsound⟩ := h.sound
  refine ⟨fun data stored c' events hput => ?_, fun bytes c' events hget => ?_,
    fun c' events hget => ?_⟩
  · obtain ⟨lists', hstep⟩ := hsound.put_step hput
    cases hstep with
    | stored hputs => exact ⟨_, _, _, rfl, hputs.framesPut hsound⟩
  · rcases get_cases hget with ⟨_, heq⟩ | ⟨place, bytes', hfind, heq⟩
    · cases heq
    · cases heq
      rcases hsound.find_spec key with ⟨hnone, _⟩ | ⟨id, front, _, hid, hkey, _, hsome⟩
      · rw [hnone] at hfind
        cases hfind
      · rw [hsome] at hfind
        cases hfind
        exact ⟨rfl, id, hsound.resident_iff.2 hid, hkey, rfl⟩
  · rcases get_cases hget with ⟨_, heq⟩ | ⟨_, _, _, heq⟩
    · cases heq
      exact ⟨rfl, rfl⟩
    · cases heq

/-- Both entries are used, so the key 1 gives its entry up; the key 2 stays where it is, and a
lookup stamps it and nothing else. -/
theorem Reachable.put_get_frame_full :
    ∃ turns c stored c₁ bytes c₂,
      smallest.run [.put 1 ⟨#[1]⟩, .put 2 ⟨#[1]⟩] = .ok (turns, c) ∧
      c.put 3 ⟨#[1]⟩ = .ok ⟨.ok stored, c₁, [.evicted ⟨0, 0, 1, 320, 16, 0⟩]⟩ ∧
      c₁.Resident 1 ∧ c₁.catalog.directory.item 1 = c.catalog.directory.item 1 ∧
      c.get 2 = .ok ⟨some bytes, c₂, []⟩ ∧ c₂.catalog.free = c.catalog.free ∧
      c₂.len = c.len := by
  obtain ⟨turns, c, stored, c₁, bytes, c₂, hrun, hput, hget, hlayout, hchain, hkey⟩ :
      ∃ turns c stored c₁ bytes c₂,
        smallest.run [.put 1 ⟨#[1]⟩, .put 2 ⟨#[1]⟩] = .ok (turns, c) ∧
        c.put 3 ⟨#[1]⟩ = .ok ⟨.ok stored, c₁, [.evicted ⟨0, 0, 1, 320, 16, 0⟩]⟩ ∧
        c.get 2 = .ok ⟨some bytes, c₂, []⟩ ∧ c.layout = smallest.layout ∧
        c.catalog.directory.chain 0 = .ok [0, 1] ∧ (c.catalog.directory.item 1).key = 2 :=
    ⟨_, _, _, _, _, _, rfl, rfl, rfl, rfl, rfl, rfl⟩
  have hreach : c.Reachable := ⟨smallest, _, turns, fresh_smallest, hrun⟩
  have hresident : c.Resident 1 := ⟨0, by rw [hlayout]; decide, [0, 1], hchain, by simp⟩
  obtain ⟨es, id, extent, hevents, hframe⟩ := (Reachable.put_get_frame hreach 3).1 _ _ _ _ hput
  have hstays : c.Survives 3 es 1 := by
    refine ⟨by rw [hkey]; decide, fun hmem => ?_⟩
    obtain ⟨e, he, hid⟩ := List.mem_map.1 hmem
    have hevent : Event.evicted e ∈ es.map .evicted := List.mem_map_of_mem he
    rw [← hevents, List.mem_singleton, Event.evicted.injEq] at hevent
    rw [hevent] at hid
    cases hid
  obtain ⟨hthere, _, hitem, _⟩ := hframe.survivor 1 hresident hstays
  obtain ⟨_, _, _, _, hhit⟩ := (Reachable.put_get_frame hreach 2).2.1 _ _ _ hget
  exact ⟨turns, c, stored, c₁, bytes, c₂, hrun, hput, hthere, hitem, hget, by rw [hhit]; rfl,
    by rw [hhit]; rfl⟩

end Cache
end BlockCache

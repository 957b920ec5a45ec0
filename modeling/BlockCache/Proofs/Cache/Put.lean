import BlockCache.Proofs.Cache.Course
import BlockCache.Proofs.Cache.Lookup

/-!
# Put — storing an item

The last step of a put links its entry to the bin of its key and lets the clock go on.
`c.Puts lists key data es id extent c' lists'` says what the whole put has done then.
-/

namespace BlockCache
namespace Cache

variable {c c' : Cache} {lists : Nat → List Nat} {loose : List Nat} {held : List Extent}
  {id : Nat} {key : UInt32} {data : ByteArray} {extent : Extent}

/-! ## The last step -/

/-- What the entry of an item holds that is put now. -/
def newEntry (c : Cache) (key : UInt32) (extent : Extent) (dataLength : Nat) : Entry where
  key := key
  offset := extent.offset
  length := extent.length
  dataLength := dataLength
  time := c.time

theorem Sound.enter_spec {dataLength : Nat} (h : c.Sound lists (id :: loose) (extent :: held))
    (htime : c.time + 1 < Word.limit) (hpos : 0 < dataLength)
    (hround : roundToGranule dataLength = some extent.length)
    (hwhole : extent.Whole c.layout.storeLength)
    (hfresh : ∀ x ∈ rows lists c.catalog.directory.binCount,
      (c.catalog.directory.item x).key ≠ key) :
    ∃ k', c.enter id key extent dataLength =
        .ok { c with time := c.time + 1, len := c.len + 1, catalog := k' } ∧
      Sound { c with time := c.time + 1, len := c.len + 1, catalog := k' }
        (pushTo lists (c.catalog.directory.binOf key) id) loose held ∧
      k'.directory.binCount = c.catalog.directory.binCount ∧
      k'.directory.capacity = c.catalog.directory.capacity ∧
      k'.directory.item = Function.update c.catalog.directory.item id
        (c.newEntry key extent dataLength) ∧
      id ∉ rows lists c.catalog.directory.binCount := by
  have hstored : (c.newEntry key extent dataLength).Stored c.catalog.free.storeLength :=
    ⟨hpos, (roundToGranule_eq_some hround).1, hround, h.free_eq ▸ hwhole⟩
  obtain ⟨k', hlink, hlaid, hbins, hcapacity, hitems, hfree⟩ :=
    h.laid.link_spec (e := c.newEntry key extent dataLength) rfl hstored hfresh
  have hrows : (rows (pushTo lists (c.catalog.directory.binOf key) id)
      c.catalog.directory.binCount).length = c.len + 1 := by
    rw [h.len_eq]
    simpa using countP_rows_pushTo lists id (fun _ => true) (h.laid.binOf_lt key)
  -- There are no more items than entries, so the number of items fits a word.
  have hcount : (rows (pushTo lists (c.catalog.directory.binOf key) id)
      c.catalog.directory.binCount).length ≤ c.catalog.directory.capacity := by
    rw [← hbins, ← hcapacity]
    exact hlaid.spells.length_rows_le (Nat.le_succ _)
  have hlen : c.len + 1 < Word.limit :=
    calc
      c.len + 1 = _ := hrows.symm
      _ ≤ c.catalog.directory.capacity := hcount
      _ < Word.limit := h.laid.entries_lt
  have hlength : k'.free.storeLength = c.catalog.free.storeLength := hfree ▸ rfl
  have hcounted : c.counters.hits + c.counters.evictions + (c.len + 1) ≤ c.time + 1 :=
    Nat.succ_le_succ h.counted_le
  refine ⟨k', ?_, h.withCatalog hlaid hbins hcapacity hlength hrows.symm htime hcounted, hbins,
    hcapacity, hitems, h.laid.not_mem_rows_of_loose⟩
  simp only [newEntry] at hlink
  simp only [enter, tick_of_lt htime, ok_bind, hlink, during_ok, Word.checked_of_lt hlen]
  rfl

/-- The bins keep what they keep, and the bin of the new item has it behind. -/
theorem Keeps.bins_pushTo {lists' : Nat → List Nat} {keep : Nat → Prop} [DecidablePred keep]
    (h : c.Keeps lists keep c' lists') (key : UInt32) (id : Nat) :
    ∀ b < c.catalog.directory.binCount,
      pushTo lists' (c'.catalog.directory.binOf key) id b = (lists b).filter keep ++
        if b = c.catalog.directory.binOf key then [id] else [] := by
  intro b hb
  rw [Directory.binOf_congr h.items.binCount_eq, pushTo]
  by_cases hhome : b = c.catalog.directory.binOf key
  · subst hhome
    rw [Function.update_self, if_pos rfl, h.bins _ hb]
  · rw [Function.update_of_ne hhome, if_neg hhome, List.append_nil, h.bins b hb]

/-! ## What a put does -/

/-- `c'` is `c` after `data` was put under `key` into the entry `id` and the space `extent`, where
`es` was evicted. -/
structure Puts (c : Cache) (lists : Nat → List Nat) (key : UInt32) (data : ByteArray)
    (es : List Eviction) (id : Nat) (extent : Extent) (c' : Cache) (lists' : Nat → List Nat) :
    Prop where
  sound : c'.Sound lists' [] []
  config_eq : c'.config = c.config
  layout_eq : c'.layout = c.layout
  time_eq : c'.time = c.time + 1
  store_eq : c'.store = c.store.overwrite extent.offset data
  binCount_eq : c'.catalog.directory.binCount = c.catalog.directory.binCount
  item_eq : c'.catalog.directory.item =
    Function.update c.catalog.directory.item id (c.newEntry key extent data.size)
  /-- Every bin keeps its survivors in their order; the new item comes last in its bin. -/
  bins : ∀ b < c.catalog.directory.binCount, lists' b = (lists b).filter (c.Survives key es) ++
    if b = c.catalog.directory.binOf key then [id] else []
  /-- The entry and the space are none of a survivor. -/
  fresh : ∀ x ∈ rows lists c.catalog.directory.binCount, c.Survives key es x → x ≠ id ∧
    ∀ y ∈ extent, y ∉ (c.catalog.directory.item x).extent
  whole : extent.Whole c.layout.storeLength
  rounded : roundToGranule data.size = some extent.length
  names : c.Names lists es
  others : ∀ e ∈ es, e.key ≠ key
  /-- The old item of the key has gone before anything is evicted. -/
  sheds : c.catalog.directory.Sheds (c.without key lists) es

namespace Puts

variable {es : List Eviction} {lists' : Nat → List Nat}

theorem mem_rows_iff (h : c.Puts lists key data es id extent c' lists')
    (hc : c.Sound lists [] []) {x : Nat} :
    x ∈ rows lists' c'.catalog.directory.binCount ↔
      x ∈ rows lists c.catalog.directory.binCount ∧ c.Survives key es x ∨ x = id := by
  rw [h.binCount_eq, mem_rows, mem_rows]
  constructor
  · rintro ⟨b, hb, hx⟩
    rw [h.bins b hb, List.mem_append, List.mem_filter, decide_eq_true_eq] at hx
    rcases hx with ⟨hx, hstays⟩ | hx
    · exact Or.inl ⟨⟨b, hb, hx⟩, hstays⟩
    · split_ifs at hx
      · exact Or.inr (List.mem_singleton.1 hx)
      · cases hx
  · rintro (⟨⟨b, hb, hx⟩, hstays⟩ | rfl)
    · refine ⟨b, hb, ?_⟩
      rw [h.bins b hb, List.mem_append, List.mem_filter]
      exact Or.inl ⟨hx, decide_eq_true hstays⟩
    · refine ⟨c.catalog.directory.binOf key, hc.laid.binOf_lt key, ?_⟩
      rw [h.bins _ (hc.laid.binOf_lt key), if_pos rfl]
      exact List.mem_append_right _ (List.mem_singleton_self _)

theorem item_self (h : c.Puts lists key data es id extent c' lists') :
    c'.catalog.directory.item id = c.newEntry key extent data.size := by
  rw [h.item_eq, Function.update_self]

theorem item_of_survives (h : c.Puts lists key data es id extent c' lists') {x : Nat}
    (hx : x ∈ rows lists c.catalog.directory.binCount) (hstays : c.Survives key es x) :
    c'.catalog.directory.item x = c.catalog.directory.item x := by
  rw [h.item_eq, Function.update_of_ne (h.fresh x hx hstays).1]

theorem fits (h : c.Puts lists key data es id extent c' lists') (hc : c.Sound lists [] []) :
    extent.offset + data.size ≤ c.store.length :=
  hc.fits h.whole h.rounded

/-- The bytes that are put are read back. -/
theorem read_self (h : c.Puts lists key data es id extent c' lists') (hc : c.Sound lists [] []) :
    c'.store.read extent.offset data.size = .ok data := by
  rw [h.store_eq]
  exact Region.read_overwrite_self hc.inside (h.fits hc)

/-- The bytes of a survivor are the same as before. -/
theorem read_of_survives (h : c.Puts lists key data es id extent c' lists')
    (hc : c.Sound lists [] []) {x : Nat} (hx : x ∈ rows lists c.catalog.directory.binCount)
    (hstays : c.Survives key es x) :
    c'.store.read (c.catalog.directory.item x).offset (c.catalog.directory.item x).dataLength =
      c.store.read (c.catalog.directory.item x).offset
        (c.catalog.directory.item x).dataLength := by
  have hstored := hc.laid.stored x hx
  have hstop := hc.stop_le hx
  have hle := (roundToGranule_eq_some h.rounded).1
  have hlength := hstored.dataLength_le
  -- The new bytes lie on one side of the survivor's.
  have hsides := Extent.sides_of_disjoint h.whole.nonempty hstored.whole.nonempty
    (h.fresh x hx hstays).2
  simp only [Extent.stop, Entry.extent] at hsides hstop
  rw [h.store_eq]
  exact Region.read_overwrite_of_apart hc.inside (h.fits hc) (by omega) (by omega)

/-- What a put changes: its own key gets its bytes, evicted keys lose theirs, and every other key
keeps what it has. -/
theorem holds_iff (h : c.Puts lists key data es id extent c' lists') (hc : c.Sound lists [] [])
    {k : UInt32} {d : ByteArray} :
    c'.Holds lists' k d ↔
      k = key ∧ d = data ∨ k ≠ key ∧ c.Holds lists k d ∧ ∀ e ∈ es, e.key ≠ k := by
  constructor
  · rintro ⟨x, hx, rfl, hread⟩
    rcases (h.mem_rows_iff hc).1 hx with ⟨hrow, hstays⟩ | rfl
    · rw [h.item_of_survives hrow hstays] at hread ⊢
      rw [h.read_of_survives hc hrow hstays] at hread
      refine Or.inr ⟨hstays.1, ⟨x, hrow, rfl, hread⟩, fun e he hkey => hstays.2 ?_⟩
      -- An evicted item with the key would be this one.
      obtain ⟨hbin, hmem, hnamed⟩ := h.names e he
      rw [hnamed] at hkey
      obtain rfl := hc.laid.keys e.id (mem_rows.2 ⟨e.bin, hbin, hmem⟩) x hrow hkey
      exact List.mem_map_of_mem he
    · rw [h.item_self] at hread ⊢
      exact Or.inl ⟨rfl, Except.ok.inj (hread.symm.trans (h.read_self hc))⟩
  · rintro (⟨rfl, rfl⟩ | ⟨hne, ⟨x, hx, rfl, hread⟩, hothers⟩)
    · refine ⟨id, (h.mem_rows_iff hc).2 (Or.inr rfl), ?_, ?_⟩
      · rw [h.item_self]
        rfl
      · rw [h.item_self]
        exact h.read_self hc
    · -- An item that is not named and has another key survives.
      have hstays : c.Survives key es x := by
        refine ⟨hne, fun hmem => ?_⟩
        rcases List.mem_map.1 hmem with ⟨e, he, rfl⟩
        exact hothers e he (congrArg (·.key) (h.names e he).2.2)
      refine ⟨x, (h.mem_rows_iff hc).2 (Or.inl ⟨hx, hstays⟩), ?_, ?_⟩
      · rw [h.item_of_survives hx hstays]
      · rw [h.item_of_survives hx hstays, h.read_of_survives hc hx hstays]
        exact hread

/-- A lookup right after the put finds the bytes. -/
theorem get_self (h : c.Puts lists key data es id extent c' lists') (hc : c.Sound lists [] [])
    (htime : c.time + 2 < Word.limit) :
    ∃ d', c'.get key = .ok ⟨some data, c'.afterHit d', []⟩ := by
  have hnext : c'.time + 1 < Word.limit := by rwa [h.time_eq]
  obtain ⟨_, d', hget, _⟩ := h.sound.get_found ((h.holds_iff hc).2 (Or.inl ⟨rfl, rfl⟩)) hnext
  exact ⟨d', hget⟩

end Puts

/-- The last step of a put. The number of items is told from the one that the key's old item has
left. -/
theorem Course.insert_spec {length : Nat} (p : c.Course key data length)
    (h : c.Sound lists [] []) (htime : c.time + 1 < Word.limit) (hpos : 0 < data.size)
    (hround : roundToGranule data.size = some length) :
    ∃ c' lists', c.insert key data length = .ok ⟨.ok data, c', p.victims.map .evicted⟩ ∧
      c.Puts lists key data p.victims p.id p.extent c' lists' ∧
      c'.len + p.victims.length = p.dropped.len + 1 := by
  obtain ⟨lists₁, hsound, hwhole, hkeeps, hnames, hothers, hsheds, hlen⟩ :=
    p.prepared_spec h hpos hround
  have hbins := hkeeps.items.binCount_eq
  have hitems := hkeeps.items.item_eq
  have hsurvive : ∀ x, x ∈ rows lists₁ p.prepared.catalog.directory.binCount ↔
      x ∈ rows lists c.catalog.directory.binCount ∧ c.Survives key p.victims x := fun x =>
    hkeeps.mem_rows_iff
  have hfresh : ∀ x ∈ rows lists₁ p.prepared.catalog.directory.binCount,
      (p.prepared.catalog.directory.item x).key ≠ key := by
    intro x hx
    rw [hitems]
    exact ((hsurvive x).1 hx).2.1
  obtain ⟨k', henter, hsound', hbins', _, hitems', hnotRow⟩ := hsound.enter_spec
    (hkeeps.time_eq ▸ htime) hpos hround (hkeeps.layout_eq ▸ hwhole) hfresh
  have hread : p.prepared.store.read p.offset data.size = .ok data := by
    rw [hkeeps.store_eq]
    exact Region.read_overwrite_self h.inside (h.fits hwhole hround)
  refine ⟨_, _, ?_, {
    sound := hsound'
    config_eq := hkeeps.config_eq
    layout_eq := hkeeps.layout_eq
    time_eq := congrArg (· + 1) hkeeps.time_eq
    store_eq := hkeeps.store_eq
    binCount_eq := hbins'.trans hbins
    item_eq := ?items
    bins := ?bins
    fresh := ?fresh
    whole := hwhole
    rounded := hround
    names := hnames
    others := hothers
    sheds := hsheds }, ?_⟩
  · rw [p.insert_eq]
    simp only [Course.extent] at henter
    simp only [henter, ok_bind, hread, during_ok]
    rfl
  case items =>
    show k'.directory.item = _
    rw [hitems', hitems]
    simp only [newEntry, hkeeps.time_eq]
  case bins => exact hkeeps.bins_pushTo key p.id
  case fresh =>
    intro x hx hstays
    have hx' := (hsurvive x).2 ⟨hx, hstays⟩
    refine ⟨?_, fun y hy => ?_⟩
    · rintro rfl
      exact hnotRow hx'
    · -- The space was held while the survivor was an item.
      have hapart := hsound.laid.apart_held hx' (List.mem_singleton_self _) hy
      rw [hitems] at hapart
      exact hapart
  · show p.prepared.len + 1 + p.victims.length = p.dropped.len + 1
    omega

/-- Only the clock can keep an item out that fits the store. -/
theorem Course.insert_overflow {length : Nat} (p : c.Course key data length)
    (h : c.Sound lists [] []) (htime : Word.limit ≤ c.time + 1) (hpos : 0 < data.size)
    (hround : roundToGranule data.size = some length) :
    ∃ i, c.insert key data length = .error i ∧ i.fault = .overflow ∧
      i.len + p.victims.length = p.dropped.len := by
  obtain ⟨_, _, _, hkeeps, _, _, _, hlen⟩ := p.prepared_spec h hpos hround
  refine ⟨p.prepared.interruption .overflow, ?_, rfl, hlen⟩
  rw [p.insert_eq, enter, tick_of_le (hkeeps.time_eq ▸ htime)]
  rfl

/-! ## Every put -/

theorem put_empty (hempty : data.size = 0) :
    c.put key data = .ok ⟨.error (.badArgument .emptyItem), c, []⟩ :=
  if_pos hempty

theorem put_tooBig (hbig : c.layout.storeLength < data.size) :
    c.put key data = .ok ⟨.error (.tooBig data.size c.layout.storeLength), c,
      [.rejected key data.size c.layout.storeLength]⟩ := by
  have hnone : (roundToGranule data.size).filter (· ≤ c.maxLength) = none := by
    rw [Option.filter_eq_none_iff]
    intro length hround
    have hle := (roundToGranule_eq_some hround).1
    have hnot : ¬ length ≤ c.layout.storeLength := by omega
    exact fun htrue => hnot (of_decide_eq_true htrue)
  rw [put, if_neg (by omega), hnone]
  rfl

/-- An item that fits the store is rounded to a length that does too. -/
theorem Sound.put_eq_insert (h : c.Sound lists loose held) (key : UInt32) (hpos : 0 < data.size)
    (hle : data.size ≤ c.layout.storeLength) :
    ∃ length, roundToGranule data.size = some length ∧ length ≤ c.layout.storeLength ∧
      c.put key data = c.insert key data length := by
  obtain ⟨length, hround, hlength⟩ := roundToGranule_of_le (h.free_eq ▸ h.laid.store_lt)
    (h.free_eq ▸ h.laid.store_dvd) hle
  have hsome : (roundToGranule data.size).filter (· ≤ c.maxLength) = some length := by
    rw [hround]
    exact Option.filter_some_pos (decide_eq_true hlength)
  refine ⟨length, hround, hlength, ?_⟩
  rw [put, if_neg (by omega), hsome]

/-- An item that fits the store takes its course. -/
theorem Sound.exists_put_course (h : c.Sound lists [] []) (key : UInt32) (hpos : 0 < data.size)
    (hle : data.size ≤ c.layout.storeLength) :
    ∃ length, roundToGranule data.size = some length ∧
      c.put key data = c.insert key data length ∧ Nonempty (c.Course key data length) := by
  obtain ⟨length, hround, hlength, hput⟩ := h.put_eq_insert key hpos hle
  exact ⟨length, hround, hput, h.exists_course key hpos hround hlength⟩

/-- The same, with the rounded length at hand. -/
theorem Sound.put_course {length : Nat} (h : c.Sound lists [] []) (key : UInt32)
    (hpos : 0 < data.size) (hround : roundToGranule data.size = some length)
    (hle : data.size ≤ c.layout.storeLength) :
    length ≤ c.layout.storeLength ∧ c.put key data = c.insert key data length ∧
      Nonempty (c.Course key data length) := by
  obtain ⟨length', hround', hlength, hput⟩ := h.put_eq_insert key hpos hle
  rw [hround] at hround'
  cases hround'
  exact ⟨hlength, hput, h.exists_course key hpos hround hlength⟩

theorem Sound.put_spec (h : c.Sound lists [] []) (key : UInt32) (htime : c.time + 1 < Word.limit)
    (hpos : 0 < data.size) (hle : data.size ≤ c.layout.storeLength) :
    ∃ es id extent c' lists', c.put key data = .ok ⟨.ok data, c', es.map .evicted⟩ ∧
      c.Puts lists key data es id extent c' lists' := by
  obtain ⟨length, hround, hput, ⟨p⟩⟩ := h.exists_put_course key hpos hle
  obtain ⟨c', lists', hinsert, hputs, _⟩ := p.insert_spec h htime hpos hround
  exact ⟨p.victims, p.id, p.extent, c', lists', hput.trans hinsert, hputs⟩

theorem Sound.put_overflow (h : c.Sound lists [] []) (key : UInt32)
    (htime : Word.limit ≤ c.time + 1) (hpos : 0 < data.size)
    (hle : data.size ≤ c.layout.storeLength) :
    ∃ i, c.put key data = .error i ∧ i.fault = .overflow := by
  obtain ⟨length, hround, hput, ⟨p⟩⟩ := h.exists_put_course key hpos hle
  obtain ⟨i, hinsert, hfault, _⟩ := p.insert_overflow h htime hpos hround
  exact ⟨i, hput.trans hinsert, hfault⟩

/-- An item that is stored is not refused for its size, and not stopped by the clock. -/
theorem Sound.of_put {stored : ByteArray} {events : List Event} (h : c.Sound lists [] [])
    (hput : c.put key data = .ok ⟨.ok stored, c', events⟩) :
    0 < data.size ∧ data.size ≤ c.layout.storeLength ∧ c.time + 1 < Word.limit := by
  have hpos : 0 < data.size := by
    by_contra hempty
    rw [put_empty (Nat.eq_zero_of_not_pos hempty)] at hput
    cases hput
  have hle : data.size ≤ c.layout.storeLength := by
    by_contra hbig
    rw [put_tooBig (Nat.lt_of_not_le hbig)] at hput
    cases hput
  refine ⟨hpos, hle, ?_⟩
  by_contra hlast
  obtain ⟨i, hstop, _⟩ := h.put_overflow key (Nat.le_of_not_lt hlast) hpos hle
  rw [hstop] at hput
  cases hput

end Cache
end BlockCache

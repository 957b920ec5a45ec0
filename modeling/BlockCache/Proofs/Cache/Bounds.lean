import BlockCache.Proofs.Cache.Agreement
import BlockCache.Proofs.Cache.Counting
import BlockCache.Proofs.Report.Occupancy

/-!
# Bounds — no operation leaves the memory or the numbers of the machine

* `FreeList.Inside f` — the blocks of `f` are whole granules of a store whose length fits a word;
* `Cache.InBounds c` — every position and every range that an operation on `c` uses lies in its
  table or in the store, and every size that it adds up fits a word.

Whatever is requested, a cache stays in bounds and every request is answered, until the clock would
have to tick for the `2 ^ 64`th time or a counter would have to go up for the `2 ^ 64`th time
(`run_stays_in_bounds`).
-/

namespace BlockCache

/-! ## Free lists -/

namespace FreeList

/-- The blocks are whole granules of the store, whose length fits a word. -/
structure Inside (f : FreeList) : Prop where
  store_lt : f.storeLength < Word.limit
  whole : ∀ b ∈ f.blocks, b.Whole f.storeLength

namespace Inside

variable {f f' : FreeList}

theorem allocate {length offset : Nat} (h : f.Inside) (hpos : 0 < length)
    (hdvd : granule ∣ length) (halloc : f.allocate length = some (offset, f')) :
    offset + length ≤ f.storeLength ∧ f'.Inside := by
  have hlength := allocate_storeLength halloc
  refine ⟨(whole_allocate h.whole hpos hdvd halloc).stop_le, hlength ▸ h.store_lt, ?_⟩
  exact whole_blocks_allocate h.whole hdvd halloc

theorem giveBack {e : Extent} (h : f.Inside) (he : e.Whole f.storeLength) :
    ∃ f', f.giveBack e = .ok f' ∧ f'.Inside :=
  ⟨_, giveBack_eq (Nat.lt_of_le_of_lt he.stop_le h.store_lt),
    ⟨h.store_lt, whole_release h.whole he⟩⟩

end Inside

/-- There is a granule of free space for each block. -/
theorem length_blocks_le {f : FreeList} (hf : ∀ b ∈ f.blocks, b.Whole f.storeLength) :
    f.blocks.length * granule ≤ f.freeBytes := by
  have hall : ∀ length ∈ f.blocks.map (·.length), granule ≤ length :=
    List.forall_mem_map.2 fun b hb => (hf b hb).granule_le
  have hsum := length_mul_le_sumOf hall
  rwa [List.length_map] at hsum

end FreeList

/-! ## New caches -/

namespace Layout

/-- The regions of a layout lie inside its budget, and the heads are not too many. -/
structure Fits (l : Layout) : Prop where
  stop_le : l.stop ≤ l.totalLength
  heads_lt : (l.binCount + 1) * Footprint.head < Word.limit

theorem plan_fits {total : Nat} {config : Config} {l : Layout} (h : plan total config = .ok l) :
    l.Fits ∧ l.totalLength = total := by
  have hheads := sizes_lt_of_plan h ((l.binCount + 1) * Footprint.head) (by simp [sizes])
  obtain ⟨hplan, rfl⟩ := plan_eq_ok_iff.1 h
  exact ⟨⟨(planned_filled hplan.room).stop_le, hheads⟩, rfl⟩

end Layout

namespace Cache

variable {c c' : Cache} {lists : Nat → List Nat} {turns : List Turn}

/-! ## Creation -/

theorem mapError_error_ne_fault {α : Type} {x : Except CacheError α} {f : Fault} :
    x.mapError Failure.error ≠ .error (.fault f) := by
  intro h
  cases x with
  | ok a => cases h
  | error e => cases h

theorem assemble_ne_fault {config : Config} {l : Layout} {store : Region} {f : Fault}
    (hl : l.Fits) : assemble config l store ≠ .error (.fault f) := by
  intro h
  rcases eq_error_of_bind h with hcatalog | ⟨k, _, h⟩
  · rcases eq_error_of_bind hcatalog with hdirectory | ⟨d, _, h⟩
    · rcases eq_error_of_bind hdirectory with htable | ⟨table, _, h⟩
      · exact mapError_error_ne_fault htable
      · rcases eq_error_of_bind h with hheads | ⟨heads, _, h⟩
        · simp only [Directory.reserveBins, Word.checked_of_lt hl.heads_lt] at hheads
          split_ifs at hheads <;> cases hheads
        · cases h
    · rcases eq_error_of_bind h with hfree | ⟨free, _, h⟩
      · exact mapError_error_ne_fault hfree
      · cases h
  · cases h

theorem create_ne_fault (config : Config) (total : Nat) (f : Fault) :
    create config total ≠ .error (.fault f) := by
  intro h
  rcases eq_error_of_bind h with hplan | ⟨l, hplan, h⟩
  · exact mapError_error_ne_fault hplan
  · -- A layout that has been planned fits, so assembling it cannot overflow.
    rcases eq_error_of_bind h with hstore | ⟨store, _, h⟩
    · exact mapError_error_ne_fault hstore
    · exact assemble_ne_fault (Layout.plan_fits (eq_ok_of_mapError hplan)).1 h

/-- The store that is borrowed lies in the block. -/
theorem construct_ne_fault (config : Config) (block : ByteArray) (f : Fault) :
    construct config block ≠ .error (.fault f) := by
  intro h
  by_cases hempty : block.size = 0
  · rw [construct, if_pos hempty] at h
    cases h
  · rw [construct, if_neg hempty] at h
    rcases eq_error_of_bind h with hplan | ⟨l, hplan, h⟩
    · exact mapError_error_ne_fault hplan
    · obtain ⟨hfits, htotal⟩ := Layout.plan_fits (eq_ok_of_mapError hplan)
      rcases eq_error_of_bind h with hstore | ⟨store, _, h⟩
      · have hstart : l.storeOffset ≤ l.stop := Nat.le_add_right _ _
        rw [Region.borrow, if_pos ⟨hstart, htotal ▸ hfits.stop_le⟩] at hstore
        cases hstore
      · exact assemble_ne_fault hfits h

theorem Fresh.layout_fits (h : c.Fresh) :
    c.layout.Fits ∧ c.layout.entryCount ≤ Directory.maxEntries := by
  obtain ⟨config, l, total, k, store, hplan, hcreate, _, _, rfl⟩ := h.assembled
  refine ⟨(Layout.plan_fits hplan).1, ?_⟩
  -- A table of more entries is refused.
  obtain ⟨d, hdirectory, _⟩ := eq_ok_of_bind hcreate
  obtain ⟨table, htable, _⟩ := eq_ok_of_bind hdirectory
  have htable := eq_ok_of_mapError htable
  simp only [Directory.reserveEntries] at htable
  split_ifs at htable with hmany
  exact Nat.not_lt.1 hmany

theorem Trace.layout_fits (h : Trace turns c lists) :
    c.layout.Fits ∧ c.layout.entryCount ≤ Directory.maxEntries := by
  induction h with
  | fresh hfresh => exact hfresh.layout_fits
  | step _ hstep ih => rwa [hstep.layout_eq]

/-! ## Requests -/

/-- Every item is on the chain of one bin. -/
theorem Sound.sumOf_chainLengths (h : c.Sound lists [] []) :
    sumOf ((List.range c.layout.binCount).map fun b => (lists b).length) = c.len := by
  rw [h.len_eq, rows, List.length_flatMap, h.bins_eq]
  rfl

/-- The occupancy of a sound cache can be measured. -/
theorem Sound.occupancy_eq (h : c.Sound lists [] []) :
    c.occupancy = .ok ⟨(List.range c.layout.binCount).map fun b => (lists b).length,
      c.layout.entryCount, c.layout.storeLength,
      c.layout.storeLength - c.catalog.free.freeBytes, c.catalog.free.blocks.length,
      c.catalog.free.largestBlock⟩ := by
  have hlengths : (List.range c.layout.binCount).mapM c.catalog.directory.chainLength =
      .ok ((List.range c.layout.binCount).map fun b => (lists b).length) := by
    refine mapM_eq_ok fun b hb => h.laid.spells.chainLength_eq ?_
    rw [h.bins_eq]
    exact Nat.le_of_lt (List.mem_range.1 hb)
  have hlt : c.len < Word.limit := by
    rw [h.len_eq]
    exact Nat.lt_of_le_of_lt (h.laid.spells.length_rows_le (Nat.le_succ _)) h.laid.entries_lt
  simp only [occupancy, hlengths, ok_bind, Occupancy.measure, h.sumOf_chainLengths,
    Word.checked_of_lt hlt, if_pos h.freeBytes_le]

/-- The next tick of the clock, or the next miss, is one too many for a word. -/
def Exhausted (c : Cache) : Prop :=
  Word.limit ≤ c.time + 1 ∨ Word.limit ≤ c.counters.misses + 1

theorem Sound.perform_spec (h : c.Sound lists [] []) (r : Request) :
    (∃ o, c.perform r = .ok o) ∨
      c.Exhausted ∧ ∃ i, c.perform r = .error i ∧ i.fault = .overflow := by
  cases r with
  | put key data =>
      rcases Nat.eq_zero_or_pos data.size with hempty | hpos
      · simp only [perform, put_empty hempty, ok_bind]
        exact Or.inl ⟨_, rfl⟩
      rcases Nat.lt_or_ge c.layout.storeLength data.size with hbig | hle
      · simp only [perform, put_tooBig hbig, ok_bind]
        exact Or.inl ⟨_, rfl⟩
      rcases Nat.lt_or_ge (c.time + 1) Word.limit with htime | htime
      · obtain ⟨es, _, _, c', _, hok, _⟩ := h.put_spec key htime hpos hle
        simp only [perform, hok, ok_bind]
        exact Or.inl ⟨_, rfl⟩
      · obtain ⟨i, herror, hfault⟩ := h.put_overflow key htime hpos hle
        simp only [perform, herror]
        exact Or.inr ⟨Or.inl htime, i, rfl, hfault⟩
  | get key =>
      by_cases hdata : ∃ data, c.Holds lists key data
      · obtain ⟨data, hdata⟩ := hdata
        rcases Nat.lt_or_ge (c.time + 1) Word.limit with htime | htime
        · obtain ⟨id, d', hok, _⟩ := h.get_found hdata htime
          simp only [perform, hok, ok_bind]
          exact Or.inl ⟨_, rfl⟩
        · simp only [perform, h.get_overflow hdata htime]
          exact Or.inr ⟨Or.inl htime, _, rfl, rfl⟩
      · rcases Nat.lt_or_ge (c.counters.misses + 1) Word.limit with hcount | hcount
        · simp only [perform, h.get_missed hdata hcount, ok_bind]
          exact Or.inl ⟨_, rfl⟩
        · simp only [perform, h.get_missed_overflow hdata hcount]
          exact Or.inr ⟨Or.inr hcount, _, rfl, rfl⟩
  | contains key =>
      obtain ⟨b, hcontains, _⟩ := h.contains_spec key
      simp only [perform, hcontains, during_ok, ok_bind]
      exact Or.inl ⟨_, rfl⟩
  | empty => exact Or.inl ⟨_, rfl⟩
  | stats reset =>
      simp only [perform, stats, h.occupancy_eq, during_ok]
      cases c.config.detailedStats <;> exact Or.inl ⟨_, rfl⟩
  | occupancy =>
      simp only [perform, h.occupancy_eq, during_ok, ok_bind]
      exact Or.inl ⟨_, rfl⟩

/-- A run is answered to its end, or stops at a request for which the clock has no tick left or the
counter of misses is full. -/
theorem Sound.run_spec (h : c.Sound lists [] []) (requests : List Request) :
    (∃ turns c', c.run requests = .ok (turns, c')) ∨
      ∃ done r rest turns c' i, requests = done ++ r :: rest ∧ c.run done = .ok (turns, c') ∧
        c'.Exhausted ∧ c'.perform r = .error i ∧ i.fault = .overflow := by
  induction requests generalizing c lists with
  | nil => exact Or.inl ⟨[], c, rfl⟩
  | cons r rest ih =>
      rcases h.perform_spec r with ⟨o, hperform⟩ | ⟨hfull, i, hperform, hfault⟩
      · -- The cache is sound after the request, which is what the rest of the run needs.
        obtain ⟨lists', hstep⟩ := h.perform_step hperform
        rcases ih (hstep.sound h) with ⟨turns, c', hrun⟩ |
          ⟨done, r', rest', turns, c', i, rfl, hrun, hfull, hstop, hfault⟩
        · refine Or.inl ⟨⟨r, o.answer, o.events⟩ :: turns, c', ?_⟩
          simp only [run, hperform, ok_bind, hrun]
          rfl
        · refine Or.inr ⟨r :: done, r', rest', ⟨r, o.answer, o.events⟩ :: turns, c', i, rfl, ?_,
            hfull, hstop, hfault⟩
          simp only [run, hperform, ok_bind, hrun]
          rfl
      · exact Or.inr ⟨[], r, rest, [], c, i, rfl, rfl, hfull, hperform, hfault⟩

/-! ## Bounds -/

/-- Every position and every range that an operation uses lies in its table or in the store, and
every size that it adds up fits a word. -/
structure InBounds (c : Cache) : Prop extends Planned c where
  binOf_lt : ∀ key, c.catalog.directory.binOf key < c.layout.binCount
  chains : ∀ b ≤ c.layout.binCount, ∃ ids, c.catalog.directory.chain b = .ok ids ∧
    ∀ id ∈ ids, id < c.layout.entryCount
  /-- The bytes of an item lie in its space, and that in the store. -/
  items : ∀ b < c.layout.binCount, ∀ ids, c.catalog.directory.chain b = .ok ids →
    ∀ id ∈ ids, (c.catalog.directory.item id).dataLength ≤ (c.catalog.directory.item id).length ∧
      (c.catalog.directory.item id).extent.stop ≤ c.layout.storeLength
  free : c.catalog.free.Inside
  freeBytes_le : c.catalog.free.freeBytes ≤ c.layout.storeLength
  len_le : c.len ≤ c.layout.entryCount
  /-- The extents that an audit lays in a row. -/
  extents_lt : c.layout.entryCount + c.catalog.free.blocks.length < Word.limit
  stop_le : c.layout.stop ≤ c.layout.totalLength

theorem Sound.inBounds (h : c.Sound lists [] []) (hfits : c.layout.Fits)
    (hentries : c.layout.entryCount ≤ Directory.maxEntries) : c.InBounds where
  toPlanned := h.toPlanned
  binOf_lt := by
    intro key
    rw [← h.bins_eq]
    exact h.laid.binOf_lt key
  chains := by
    intro b hb
    rw [← h.bins_eq] at hb
    refine ⟨lists b, h.laid.spells.chain_eq hb, fun id hid => ?_⟩
    rw [← h.entries_eq]
    exact h.laid.spells.lt_capacity hb hid
  items := by
    intro b hb ids hchain id hid
    rw [← h.bins_eq] at hb
    rw [h.laid.spells.chain_eq (Nat.le_of_lt hb)] at hchain
    cases hchain
    have hstored := h.laid.stored id (mem_rows.2 ⟨b, hb, hid⟩)
    exact ⟨hstored.dataLength_le, h.free_eq ▸ hstored.whole.stop_le⟩
  free := ⟨h.laid.store_lt, h.laid.tidy.whole⟩
  freeBytes_le := h.freeBytes_le
  len_le := by
    rw [h.len_eq, ← h.entries_eq]
    exact h.laid.spells.length_rows_le (Nat.le_succ _)
  extents_lt := by
    -- Each free block takes up a granule of the store, and the store fits a word.
    have hblocks := FreeList.length_blocks_le h.laid.tidy.whole
    have hlengths := h.sumOf_lengths
    have hstore := h.laid.store_lt
    rw [h.free_eq] at hstore
    rw [granule, Footprint.extent] at hblocks
    have hmax : Directory.maxEntries = 4294967295 := rfl
    have hlimit : Word.limit = 18446744073709551616 := rfl
    omega
  stop_le := hfits.stop_le

/-- Every request to a new cache is answered, as long as the clock has to tick fewer than `2 ^ 64`
times and the counters have to go up fewer than `2 ^ 64` times. Then the cache is in bounds, an
audit runs through, and no counter is larger than the number of times that a counter went up, so
that fewer than `2 ^ 64` of these fit a word even added up. In the middle of a request the free list
changes only by taking and giving back whole granules, which keep it inside; and no budget makes a
creation stop. -/
theorem run_stays_in_bounds {c₀ : Cache} (hfresh : c₀.Fresh) (requests : List Request) :
    ((∃ turns c, c₀.run requests = .ok (turns, c)) ∨
      ∃ done r rest turns c i, requests = done ++ r :: rest ∧ c₀.run done = .ok (turns, c) ∧
        (Word.limit ≤ ticksIn turns + 1 ∨ Word.limit ≤ bumpsIn turns + 1) ∧
        c.perform r = .error i ∧ i.fault = .overflow) ∧
    (∀ turns c, c₀.run requests = .ok (turns, c) →
      c.InBounds ∧ c.audit = .ok none ∧ c.counters.total ≤ bumpsIn turns ∧
        ∀ t ∈ turns, ∀ summary, t.answer = .stats summary → bumpsIn turns < Word.limit →
          ∃ n, summary.lookups = .ok n) ∧
    (∀ f : FreeList, f.Inside →
      (∀ length offset f', 0 < length → granule ∣ length → f.allocate length = some (offset, f') →
        offset + length ≤ f.storeLength ∧ f'.Inside) ∧
      ∀ e : Extent, e.Whole f.storeLength → ∃ f', f.giveBack e = .ok f' ∧ f'.Inside) ∧
    (∀ config total f, create config total ≠ .error (.fault f)) ∧
    ∀ config block f, construct config block ≠ .error (.fault f) := by
  refine ⟨?_, fun turns c hrun => ?_, fun f hf => ?_, create_ne_fault, construct_ne_fault⟩
  · rcases hfresh.sound.1.run_spec requests with hok |
      ⟨done, r, rest, turns, c, i, hsplit, hrun, hfull, hstop, hfault⟩
    · exact Or.inl hok
    · refine Or.inr ⟨done, r, rest, turns, c, i, hsplit, hrun, hfull.imp ?_ ?_, hstop, hfault⟩
      · obtain ⟨lists, htrace⟩ := Trace.of_run hfresh hrun
        exact fun htime => Nat.le_trans htime (Nat.succ_le_succ htrace.time_le_ticks)
      · intro hcount
        have htotal := (hfresh.counters_le hrun).1
        rw [Counters.total] at htotal
        omega
  · obtain ⟨lists, htrace⟩ := Trace.of_run hfresh hrun
    obtain ⟨hfits, hentries⟩ := htrace.layout_fits
    obtain ⟨hcounters, hreports⟩ := hfresh.counters_le hrun
    refine ⟨htrace.sound.inBounds hfits hentries, htrace.sound.audit_eq hentries, hcounters,
      fun t ht summary hanswer hbumps => ⟨_, Word.checked_of_lt ?_⟩⟩
    have htotal := hreports t ht summary hanswer
    rw [Counters.total] at htotal
    omega
  · exact ⟨fun _ _ _ hpos hdvd halloc => hf.allocate hpos hdvd halloc, fun _ he => hf.giveBack he⟩

theorem run_stays_in_bounds_smallest :
    ∃ turns c, smallest.run [.put 7 ⟨#[1]⟩, .get 7] = .ok (turns, c) ∧ c.InBounds ∧
      c.audit = .ok none ∧ c.counters.total ≤ 1 := by
  obtain ⟨turns, c, hrun, hbumps⟩ : ∃ turns c,
      smallest.run [.put 7 ⟨#[1]⟩, .get 7] = .ok (turns, c) ∧ bumpsIn turns = 1 :=
    ⟨_, _, rfl, rfl⟩
  obtain ⟨_, hruns, _⟩ := run_stays_in_bounds fresh_smallest [.put 7 ⟨#[1]⟩, .get 7]
  obtain ⟨hbounds, haudit, htotal, _⟩ := hruns turns c hrun
  exact ⟨turns, c, hrun, hbounds, haudit, hbumps ▸ htotal⟩

end Cache
end BlockCache

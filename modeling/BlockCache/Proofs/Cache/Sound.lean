import BlockCache.Cache.Evict
import BlockCache.Proofs.Catalog
import BlockCache.Proofs.Memory.Region

/-!
# Sound — the invariant of a cache

`c.Sound lists loose held` says that the parts of a cache have the sizes of its layout
(`Cache.Planned`), that its catalog is laid out (`Catalog.Laid`), that it counts its items right,
and that its clock has a tick for all that it has counted (`Cache.Clocked`). `c.Holds lists key
data` says which bytes a sound cache has for a key. Looking a key up and forgetting it are read off
the lists.
-/

namespace BlockCache

/-! ## Counters -/

namespace Counters

variable {n n' : Counters}

theorem hit_of_lt (h : n.hits + 1 < Word.limit) : n.hit = .ok { n with hits := n.hits + 1 } := by
  simp only [hit, Word.checked_of_lt h, ok_bind]
  rfl

theorem hit_eq_ok (h : n.hit = .ok n') : n' = { n with hits := n.hits + 1 } := by
  obtain ⟨hits, hchecked, h⟩ := eq_ok_of_bind h
  cases h
  rw [Word.eq_of_checked hchecked]

theorem miss_of_lt (h : n.misses + 1 < Word.limit) :
    n.miss = .ok { n with misses := n.misses + 1 } := by
  simp only [miss, Word.checked_of_lt h, ok_bind]
  rfl

theorem miss_of_le (h : Word.limit ≤ n.misses + 1) : n.miss = .error .overflow := by
  simp only [miss, Word.checked_of_le h]
  rfl

theorem miss_eq_ok (h : n.miss = .ok n') : n' = { n with misses := n.misses + 1 } := by
  obtain ⟨misses, hchecked, h⟩ := eq_ok_of_bind h
  cases h
  rw [Word.eq_of_checked hchecked]

theorem evict_of_lt (h : n.evictions + 1 < Word.limit) :
    n.evict = .ok { n with evictions := n.evictions + 1 } := by
  simp only [evict, Word.checked_of_lt h, ok_bind]
  rfl

theorem evict_of_le (h : Word.limit ≤ n.evictions + 1) : n.evict = .error .overflow := by
  simp only [evict, Word.checked_of_le h]
  rfl

theorem evict_eq_ok (h : n.evict = .ok n') : n' = { n with evictions := n.evictions + 1 } := by
  obtain ⟨evictions, hchecked, h⟩ := eq_ok_of_bind h
  cases h
  rw [Word.eq_of_checked hchecked]

end Counters

namespace Cache

variable {c c' : Cache} {lists : Nat → List Nat} {loose : List Nat} {held : List Extent}
  {b id : Nat} {key : UInt32} {data : ByteArray}

/-! ## Steps on a part, and ticks -/

@[simp]
theorem during_ok {α : Type} (c : Cache) (a : α) : c.during (.ok a) = .ok a :=
  rfl

@[simp]
theorem during_error {α : Type} (c : Cache) (f : Fault) :
    c.during (.error f : Except Fault α) = .error (c.interruption f) :=
  rfl

theorem eq_ok_of_during {α : Type} {step : Except Fault α} {a : α} (h : c.during step = .ok a) :
    step = .ok a := by
  cases step with
  | ok b =>
      cases h
      rfl
  | error f => cases h

theorem tick_of_lt (htime : c.time + 1 < Word.limit) :
    c.tick = .ok (c.time, { c with time := c.time + 1 }) := by
  simp only [tick, Word.checked_of_lt htime, during_ok, ok_bind]
  rfl

theorem tick_of_le (htime : Word.limit ≤ c.time + 1) :
    c.tick = .error (c.interruption .overflow) := by
  simp only [tick, Word.checked_of_le htime, during_error]
  rfl

theorem tick_eq_ok {now : Nat} (h : c.tick = .ok (now, c')) :
    now = c.time ∧ c' = { c with time := c.time + 1 } := by
  rcases Nat.lt_or_ge (c.time + 1) Word.limit with htime | htime
  · rw [tick_of_lt htime] at h
    cases h
    exact ⟨rfl, rfl⟩
  · rw [tick_of_le htime] at h
    cases h

/-! ## The invariant -/

/-- The parts have the sizes that the layout plans for them. -/
structure Planned (c : Cache) : Prop where
  bins_eq : c.catalog.directory.binCount = c.layout.binCount
  entries_eq : c.catalog.directory.capacity = c.layout.entryCount
  free_eq : c.catalog.free.storeLength = c.layout.storeLength
  store_eq : c.store.length = c.layout.storeLength
  inside : c.store.Inside

/-- The clock fits a word, and has a tick for every hit and for every item that was evicted or is
still there. So hits and evictions fit a word as well; misses do not tick. -/
structure Clocked (c : Cache) : Prop where
  time_lt : c.time < Word.limit
  counted_le : c.counters.hits + c.counters.evictions + c.len ≤ c.time

structure Sound (c : Cache) (lists : Nat → List Nat) (loose : List Nat) (held : List Extent) :
    Prop extends Planned c, Clocked c where
  laid : c.catalog.Laid lists loose held
  len_eq : c.len = (rows lists c.catalog.directory.binCount).length

/-- Some item of the cache has this key and these bytes. -/
def Holds (c : Cache) (lists : Nat → List Nat) (key : UInt32) (data : ByteArray) : Prop :=
  ∃ id ∈ rows lists c.catalog.directory.binCount, (c.catalog.directory.item id).key = key ∧
    c.store.read (c.catalog.directory.item id).offset (c.catalog.directory.item id).dataLength =
      .ok data

namespace Sound

/-- A catalog of the same sizes takes the place of the old one, and figures that the clock covers
take the place of the old figures. -/
theorem withCatalog {k' : Catalog} {lists' : Nat → List Nat} {loose' : List Nat}
    {held' : List Extent} {len time : Nat} {counters : Counters} (h : c.Sound lists loose held)
    (hlaid : k'.Laid lists' loose' held')
    (hbins : k'.directory.binCount = c.catalog.directory.binCount)
    (hcapacity : k'.directory.capacity = c.catalog.directory.capacity)
    (hlength : k'.free.storeLength = c.catalog.free.storeLength)
    (hlen : len = (rows lists' c.catalog.directory.binCount).length)
    (htime : time < Word.limit) (hcounted : counters.hits + counters.evictions + len ≤ time) :
    Sound { c with time := time, len := len, catalog := k', counters := counters } lists' loose'
      held' where
  bins_eq := hbins.trans h.bins_eq
  entries_eq := hcapacity.trans h.entries_eq
  free_eq := hlength.trans h.free_eq
  store_eq := h.store_eq
  inside := h.inside
  time_lt := htime
  counted_le := hcounted
  laid := hlaid
  len_eq := by
    rw [hbins]
    exact hlen

/-- While the clock has a tick left, the counter of hits has one, too. -/
theorem hits_lt (h : c.Sound lists loose held) (htime : c.time + 1 < Word.limit) :
    c.counters.hits + 1 < Word.limit := by
  have hcounted := h.counted_le
  omega

theorem stop_le (h : c.Sound lists loose held)
    (hid : id ∈ rows lists c.catalog.directory.binCount) :
    (c.catalog.directory.item id).extent.stop ≤ c.store.length := by
  rw [h.store_eq, ← h.free_eq]
  exact (h.laid.stored id hid).whole.stop_le

/-- The bytes of an item can be read. -/
theorem read_item (h : c.Sound lists loose held)
    (hid : id ∈ rows lists c.catalog.directory.binCount) :
    ∃ data, c.store.read (c.catalog.directory.item id).offset
      (c.catalog.directory.item id).dataLength = .ok data := by
  have hstop := h.stop_le hid
  have hle := (h.laid.stored id hid).dataLength_le
  simp only [Extent.stop, Entry.extent] at hstop
  exact ⟨_, Region.read_eq_ok (by omega)⟩

theorem holds_unique (h : c.Sound lists loose held) {data' : ByteArray}
    (hdata : c.Holds lists key data) (hdata' : c.Holds lists key data') : data = data' := by
  rcases hdata with ⟨id, hid, hkey, hread⟩
  rcases hdata' with ⟨id', hid', hkey', hread'⟩
  -- Only one item has the key.
  obtain rfl := h.laid.keys id hid id' hid' (hkey.trans hkey'.symm)
  exact Except.ok.inj (hread.symm.trans hread')

/-! ## Looking up -/

/-- Either the key is found where its item sits, or the cache holds nothing for it. -/
theorem find_spec (h : c.Sound lists loose held) (key : UInt32) :
    (c.catalog.directory.find key = .ok none ∧
      ∀ id ∈ rows lists c.catalog.directory.binCount, (c.catalog.directory.item id).key ≠ key) ∨
    ∃ id front back, id ∈ rows lists c.catalog.directory.binCount ∧
      (c.catalog.directory.item id).key = key ∧
      lists (c.catalog.directory.binOf key) = front ++ id :: back ∧
      c.catalog.directory.find key =
        .ok (some ⟨c.catalog.directory.binOf key, front.getLast?, id⟩) := by
  by_cases hkey : ∃ id ∈ rows lists c.catalog.directory.binCount,
      (c.catalog.directory.item id).key = key
  · rcases hkey with ⟨id, hid, rfl⟩
    obtain ⟨front, back, hlist, hfind⟩ := h.laid.find_found hid
    exact Or.inr ⟨id, front, back, hid, rfl, hlist, hfind⟩
  · push Not at hkey
    exact Or.inl ⟨h.laid.find_missed hkey, hkey⟩

/-! ## Losing an item -/

/-- A cache whose catalog has lost one item, and that counts one item less. -/
theorem lose (h : c.Sound lists loose held) (hb : b < c.catalog.directory.binCount)
    (hid : id ∈ lists b) {k' : Catalog}
    (hlaid : k'.Laid (moveToSpare lists c.catalog.directory.binCount b id) loose held)
    (hsame : c.catalog.directory.SameItems k'.directory)
    (hstore : k'.free.storeLength = c.catalog.free.storeLength) :
    c.len ≠ 0 ∧ Sound { c with catalog := k', len := c.len - 1 }
      (moveToSpare lists c.catalog.directory.binCount b id) loose held := by
  have hlength := length_rows_moveToSpare hb hid
  have hcounted := h.counted_le
  rw [← h.len_eq] at hlength
  refine ⟨by omega, h.withCatalog hlaid hsame.binCount_eq hsame.capacity_eq hstore ?_ h.time_lt ?_⟩
  · omega
  · omega

end Sound

/-! ## Keeping some of the items -/

/-- `c'` is `c` with only the items left that satisfy `keep`, in their old order. Counters are left
open. -/
structure Keeps (c : Cache) (lists : Nat → List Nat) (keep : Nat → Prop) [DecidablePred keep]
    (c' : Cache) (lists' : Nat → List Nat) : Prop where
  config_eq : c'.config = c.config
  layout_eq : c'.layout = c.layout
  time_eq : c'.time = c.time
  store_eq : c'.store = c.store
  items : c.catalog.directory.SameItems c'.catalog.directory
  bins : ∀ b < c.catalog.directory.binCount, lists' b = (lists b).filter keep

namespace Keeps

variable {c'' : Cache} {lists' lists'' : Nat → List Nat} {keep keep' : Nat → Prop}
  [DecidablePred keep] [DecidablePred keep']

theorem refl (c : Cache) (lists : Nat → List Nat) (hall : ∀ id, keep id) :
    c.Keeps lists keep c lists :=
  ⟨rfl, rfl, rfl, rfl, .refl _, fun b _ => by simp [hall]⟩

theorem trans (h : c.Keeps lists keep c' lists') (h' : c'.Keeps lists' keep' c'' lists'') :
    c.Keeps lists (fun id => keep id ∧ keep' id) c'' lists'' where
  config_eq := h'.config_eq.trans h.config_eq
  layout_eq := h'.layout_eq.trans h.layout_eq
  time_eq := h'.time_eq.trans h.time_eq
  store_eq := h'.store_eq.trans h.store_eq
  items := h.items.trans h'.items
  bins := by
    intro b hb
    rw [h'.bins b (h.items.binCount_eq ▸ hb), h.bins b hb, List.filter_filter]
    exact List.filter_congr fun x _ => Bool.eq_iff_iff.2 (by simp [and_comm])

theorem congr (h : c.Keeps lists keep c' lists') (hkeep : ∀ id, keep id ↔ keep' id) :
    c.Keeps lists keep' c' lists' := by
  refine { h with bins := fun b hb => ?_ }
  rw [h.bins b hb]
  exact List.filter_congr fun id _ => decide_eq_decide.2 (hkeep id)

/-- Which bytes the store has is of no account. -/
theorem withStore (h : c.Keeps lists keep c' lists') (store : Region) :
    Keeps { c with store := store } lists keep { c' with store := store } lists' :=
  { h with store_eq := rfl }

theorem mem_rows_iff (h : c.Keeps lists keep c' lists') :
    id ∈ rows lists' c'.catalog.directory.binCount ↔
      id ∈ rows lists c.catalog.directory.binCount ∧ keep id := by
  rw [h.items.binCount_eq, rows_congr h.bins, mem_rows_filter]

end Keeps

/-- A cache that has lost one item keeps the others. -/
theorem keeps_lose (h : c.catalog.directory.Spells lists) (hb : b < c.catalog.directory.binCount)
    (hid : id ∈ lists b) {k' : Catalog} (len : Nat) (counters : Counters)
    (hsame : c.catalog.directory.SameItems k'.directory) :
    c.Keeps lists (· ≠ id) { c with catalog := k', len := len, counters := counters }
      (moveToSpare lists c.catalog.directory.binCount b id) :=
  ⟨rfl, rfl, rfl, rfl, hsame, fun _ hb' => h.moveToSpare_of_lt hb hid hb'⟩

/-- The bytes of an item that is lost are free from then on. -/
theorem Keeps.bytes_of_lost {lists' : Nat → List Nat} {loose' : List Nat} {keep : Nat → Prop}
    [DecidablePred keep] (h : c.Keeps lists keep c' lists') (hc : c.Sound lists loose held)
    (hc' : c'.Sound lists' loose' []) (hid : id ∈ rows lists c.catalog.directory.binCount)
    (hlost : ¬ keep id) {x : Nat} (hx : x ∈ (c.catalog.directory.item id).extent) :
    x ∈ c'.catalog.free.bytes := by
  have hlength : c'.catalog.free.storeLength = c.catalog.free.storeLength :=
    calc
      c'.catalog.free.storeLength = c'.layout.storeLength := hc'.free_eq
      _ = c.layout.storeLength := by rw [h.layout_eq]
      _ = c.catalog.free.storeLength := hc.free_eq.symm
  have hstop := (hc.laid.stored id hid).whole.stop_le
  rw [hc'.laid.mem_bytes_iff (by rw [hlength]; exact Nat.lt_of_lt_of_le hx.2 hstop)]
  -- What is left has none of these bytes, as it had none before.
  intro y hy hxy
  obtain ⟨hrow, hkeep⟩ := h.mem_rows_iff.1 hy
  rw [h.items.item_eq] at hxy
  rw [hc.laid.eq_of_mem_extents hid hrow hx hxy] at hlost
  exact hlost hkeep

/-! ## Forgetting -/

/-- Forgetting a key drops its item and nothing else. -/
theorem Sound.forget_spec (h : c.Sound lists loose held) (key : UInt32) :
    ∃ found c' lists', c.forget key = .ok (found, c') ∧ c'.Sound lists' loose held ∧
      c.Keeps lists (fun id => (c.catalog.directory.item id).key ≠ key) c' lists' ∧
      c'.counters = c.counters := by
  rcases h.find_spec key with ⟨hfind, hnone⟩ | ⟨id, front, back, hid, hkey, hlist, hfind⟩
  · refine ⟨false, c, lists, ?_, h, ⟨rfl, rfl, rfl, rfl, .refl _, fun b hb => ?_⟩, rfl⟩
    · simp only [forget, hfind, during_ok, ok_bind]
      rfl
    · -- Nothing has the key, so nothing is left out.
      rw [eq_comm, List.filter_eq_self]
      exact fun id hid => decide_eq_true (hnone id (mem_rows.2 ⟨b, hb, hid⟩))
  · have hb := h.laid.binOf_lt key
    have hmem : id ∈ lists (c.catalog.directory.binOf key) := by simp [hlist]
    obtain ⟨k', hdrop, hlaid, hsame, hstore⟩ := h.laid.drop_spec hb hlist
    obtain ⟨hlen, hsound⟩ := h.lose hb hmem hlaid hsame hstore
    have hkeeps := keeps_lose h.laid.spells hb hmem (c.len - 1) c.counters hsame
    refine ⟨true, _, _, ?_, hsound, { hkeeps with bins := fun b hb => ?_ }, rfl⟩
    · simp only [forget, hfind, hdrop, during_ok, ok_bind, if_neg hlen]
      rfl
    · -- Only this item has the key.
      rw [hkeeps.bins b hb]
      refine List.filter_congr fun x hx => decide_eq_decide.2 ⟨fun hne heq => hne ?_, ?_⟩
      · exact h.laid.keys x (mem_rows.2 ⟨b, hb, hx⟩) id hid (heq.trans hkey.symm)
      · rintro hne rfl
        exact hne hkey

theorem Sound.of_forget {found : Bool} (h : c.Sound lists loose held)
    (hforget : c.forget key = .ok (found, c')) :
    ∃ lists', c'.Sound lists' loose held ∧
      c.Keeps lists (fun id => (c.catalog.directory.item id).key ≠ key) c' lists' ∧
      c'.counters = c.counters := by
  obtain ⟨found', c'', lists', hok, hspec⟩ := h.forget_spec key
  rw [hok] at hforget
  cases hforget
  exact ⟨lists', hspec⟩

end Cache
end BlockCache

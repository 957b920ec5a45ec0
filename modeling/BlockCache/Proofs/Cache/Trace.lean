import BlockCache.Cache.History
import BlockCache.Proofs.Cache.Lookup
import BlockCache.Proofs.Cache.Put
import BlockCache.Proofs.Layout

/-!
# Trace — what requests do, one after the other

* `Fresh c` — `c` was just created, with a store of its own or in a block;
* `Step c lists turn c' lists'` — everything that one request can do to a sound cache, with its
  answer and its events;
* `Trace turns c lists` — `c` is what the steps `turns` make of a fresh cache.

Every run of requests is a trace (`Trace.of_run`), so what every step keeps holds at the end of
every run.
-/

namespace BlockCache

namespace Cache

variable {c c' : Cache} {lists lists' : Nat → List Nat} {turns : List Turn}

/-! ## New caches -/

def Fresh (c : Cache) : Prop :=
  (∃ config total, create config total = .ok c) ∨
    ∃ config block, construct config block = .ok c

/-- The lists of a cache without items. -/
def blankLists (l : Layout) : Nat → List Nat :=
  Directory.spareLists l.binCount l.entryCount

theorem Planned.rows_blank (h : c.Planned) :
    rows (blankLists c.layout) c.catalog.directory.binCount = [] := by
  rw [h.bins_eq]
  exact Directory.rows_spareLists

theorem Planned.sound_blank (h : c.Planned) (hlaid : c.catalog.Laid (blankLists c.layout) [] [])
    (hlen : c.len = 0) (htime : c.time = 0) (hcounters : c.counters = {}) :
    c.Sound (blankLists c.layout) [] [] where
  toPlanned := h
  time_lt := by
    rw [htime]
    exact Nat.two_pow_pos 64
  counted_le := by
    rw [hlen, htime, hcounters]
    exact Nat.le_refl 0
  laid := hlaid
  len_eq := by
    rw [hlen, h.rows_blank]
    rfl

/-- A new cache follows a plan: its catalog is new and has the planned sizes, and so has its
store. -/
theorem Fresh.assembled (h : c.Fresh) :
    ∃ config l total k store, Layout.plan total config = .ok l ∧
      Catalog.create l.entryCount l.binCount l.storeLength = .ok k ∧ store.Inside ∧
      store.length = l.storeLength ∧ c = ⟨config, l, 0, 0, k, store, {}⟩ := by
  rcases h with ⟨config, total, h⟩ | ⟨config, block, h⟩
  · obtain ⟨l, hplan, h⟩ := eq_ok_of_bind h
    obtain ⟨store, hstore, h⟩ := eq_ok_of_bind h
    obtain ⟨k, hcreate, h⟩ := eq_ok_of_bind h
    cases h
    obtain ⟨hinside, hlength⟩ := Region.allocate_eq_ok (eq_ok_of_mapError hstore)
    exact ⟨config, l, total, k, store, eq_ok_of_mapError hplan, hcreate, hinside, hlength, rfl⟩
  · unfold construct at h
    obtain ⟨_, h⟩ := eq_ok_of_guard h
    obtain ⟨l, hplan, h⟩ := eq_ok_of_bind h
    obtain ⟨store, hstore, h⟩ := eq_ok_of_bind h
    obtain ⟨k, hcreate, h⟩ := eq_ok_of_bind h
    cases h
    obtain ⟨hinside, hlength⟩ := Region.borrow_eq_ok (eq_ok_of_mapError hstore)
    rw [Layout.stop, Nat.add_sub_cancel_left] at hlength
    exact ⟨config, l, block.size, k, store, eq_ok_of_mapError hplan, hcreate, hinside, hlength, rfl⟩

theorem Fresh.sound (h : c.Fresh) :
    c.Sound (blankLists c.layout) [] [] ∧ c.time = 0 ∧ c.counters = {} := by
  obtain ⟨config, l, total, k, store, hplan, hcreate, hinside, hlength, rfl⟩ := h.assembled
  obtain ⟨hentries, hbins⟩ := Layout.plan_pos hplan
  obtain ⟨hcount, hcapacity, hfree, hlaid⟩ := Catalog.create_spec hentries hbins hcreate
  have hplanned : Planned ⟨config, l, 0, 0, k, store, {}⟩ :=
    ⟨hcount, hcapacity, hfree, hlength, hinside⟩
  exact ⟨hplanned.sound_blank hlaid rfl rfl rfl, rfl, rfl⟩

/-- A cache of the smallest budget: two entries in one bin, and a store of 21 granules. -/
def smallest : Cache where
  config := {}
  layout := ⟨512, 2, 1, 56, 72, 168, 336⟩
  time := 0
  len := 0
  catalog := ⟨⟨Array.replicate 1 none, some 0, Directory.threaded 2⟩, ⟨[⟨0, 336⟩], 336⟩⟩
  store := ⟨Region.filled 336 0, 0, 336, true⟩
  counters := {}

theorem fresh_smallest : smallest.Fresh :=
  Or.inl ⟨{}, minTotalLength, rfl⟩

/-! ## One request -/

inductive Step (c : Cache) (lists : Nat → List Nat) :
    Turn → Cache → (Nat → List Nat) → Prop where
  | stored {key : UInt32} {data : ByteArray} {es : List Eviction} {id : Nat} {extent : Extent}
      {c' : Cache} {lists' : Nat → List Nat} :
      c.Puts lists key data es id extent c' lists' →
      Step c lists ⟨.put key data, .stored (.ok data), es.map .evicted⟩ c' lists'
  | rejected {key : UInt32} {data : ByteArray} {e : CacheError} {events : List Event} :
      (∀ e, .evicted e ∉ events) →
      Step c lists ⟨.put key data, .stored (.error e), events⟩ c lists
  | hit {key : UInt32} {data : ByteArray} {id : Nat} {d' : Directory} :
      c.Holds lists key data → id ∈ rows lists c.catalog.directory.binCount →
      (c.catalog.directory.item id).key = key →
      d'.binCount = c.catalog.directory.binCount →
      d'.item = Function.update c.catalog.directory.item id
        { c.catalog.directory.item id with time := c.time } →
      (c.afterHit d').Sound lists [] [] →
      Step c lists ⟨.get key, .found (some data), []⟩ (c.afterHit d') lists
  | missed {key : UInt32} :
      (¬ ∃ data, c.Holds lists key data) →
      Step c lists ⟨.get key, .found none, []⟩ c.afterMiss lists
  | checked {key : UInt32} {b : Bool} :
      (b = true ↔ ∃ data, c.Holds lists key data) →
      Step c lists ⟨.contains key, .present b, []⟩ c lists
  | emptied :
      Step c lists ⟨.empty, .emptied, [.emptied c.layout.storeLength]⟩ c.empty.cache
        (blankLists c.layout)
  | reported {reset : Bool} {summary : Summary} :
      Step c lists ⟨.stats reset, .stats summary, []⟩
        { c with counters := if reset then {} else c.counters } lists
  | measured {report : Occupancy} :
      Step c lists ⟨.occupancy, .occupancy report, []⟩ c lists

/-- Emptying a cache makes it sound whatever its parts contain. -/
theorem Planned.empty_sound (h : c.Planned) (hsized : c.catalog.Sized) :
    c.empty.cache.Sound (blankLists c.layout) [] [] := by
  obtain ⟨hbins, hcapacity, hfree, hlaid⟩ := Catalog.clear_spec hsized
  rw [h.bins_eq, h.entries_eq] at hlaid
  have hplanned : c.empty.cache.Planned :=
    ⟨hbins.trans h.bins_eq, hcapacity.trans h.entries_eq, hfree.trans h.free_eq, h.store_eq,
      h.inside⟩
  exact hplanned.sound_blank hlaid rfl rfl rfl

theorem Sound.empty_sound (h : c.Sound lists [] []) :
    c.empty.cache.Sound (blankLists c.layout) [] [] :=
  h.toPlanned.empty_sound h.laid.toSized

theorem Step.sound {turn : Turn} (h : Step c lists turn c' lists') (hc : c.Sound lists [] []) :
    c'.Sound lists' [] [] := by
  cases h with
  | stored hputs => exact hputs.sound
  | rejected _ => exact hc
  | hit _ _ _ _ _ hsound => exact hsound
  | missed _ => exact { hc with }
  | checked _ => exact hc
  | emptied => exact hc.empty_sound
  | @reported reset _ =>
      -- Cleared counters are covered by every clock.
      refine { hc with counted_le := ?_ }
      have hcounted := hc.counted_le
      cases reset with
      | true =>
          show 0 + 0 + c.len ≤ c.time
          omega
      | false => exact hcounted
  | measured => exact hc

theorem Step.layout_eq {turn : Turn} (h : Step c lists turn c' lists') :
    c'.layout = c.layout := by
  cases h with
  | stored hputs => exact hputs.layout_eq
  | _ => rfl

theorem stats_eq_ok {reset : Bool} {o : Outcome Summary} (h : c.stats reset = .ok o) :
    ∃ occupancy, o = ⟨⟨c.counters, occupancy⟩,
      { c with counters := if reset then {} else c.counters }, []⟩ := by
  unfold stats at h
  cases hdetailed : c.config.detailedStats with
  | false =>
      simp only [hdetailed] at h
      cases h
      exact ⟨_, rfl⟩
  | true =>
      simp only [hdetailed, if_true] at h
      obtain ⟨occupancy, _, h⟩ := eq_ok_of_bind h
      cases h
      exact ⟨_, rfl⟩

/-- A put is refused for its size, stopped by the clock or done. -/
theorem Sound.put_step {key : UInt32} {data : ByteArray}
    {o : Outcome (Except CacheError ByteArray)} (h : c.Sound lists [] [])
    (hput : c.put key data = .ok o) :
    ∃ lists', Step c lists ⟨.put key data, .stored o.answer, o.events⟩ o.cache lists' := by
  rcases Nat.eq_zero_or_pos data.size with hempty | hpos
  · rw [put_empty hempty] at hput
    cases hput
    exact ⟨lists, .rejected (by simp)⟩
  rcases Nat.lt_or_ge c.layout.storeLength data.size with hbig | hle
  · rw [put_tooBig hbig] at hput
    cases hput
    exact ⟨lists, .rejected (by simp)⟩
  rcases Nat.lt_or_ge (c.time + 1) Word.limit with htime | htime
  · obtain ⟨es, id, extent, c', lists', hok, hputs⟩ := h.put_spec key htime hpos hle
    rw [hok] at hput
    cases hput
    exact ⟨lists', .stored hputs⟩
  · obtain ⟨i, herror, _⟩ := h.put_overflow key htime hpos hle
    rw [herror] at hput
    cases hput

/-- A lookup misses, hits, or is stopped by the clock or the counter of misses. -/
theorem Sound.get_step {key : UInt32} {o : Outcome (Option ByteArray)}
    (h : c.Sound lists [] []) (hget : c.get key = .ok o) :
    Step c lists ⟨.get key, .found o.answer, o.events⟩ o.cache lists := by
  by_cases hdata : ∃ data, c.Holds lists key data
  · rcases hdata with ⟨data, hdata⟩
    rcases Nat.lt_or_ge (c.time + 1) Word.limit with htime | htime
    · obtain ⟨id, d', hok, hsound, hid, hkey, hbins, hitems⟩ := h.get_found hdata htime
      rw [hok] at hget
      cases hget
      exact .hit hdata hid hkey hbins hitems hsound
    · rw [h.get_overflow hdata htime] at hget
      cases hget
  · rcases Nat.lt_or_ge (c.counters.misses + 1) Word.limit with hcount | hcount
    · rw [h.get_missed hdata hcount] at hget
      cases hget
      exact .missed hdata
    · rw [h.get_missed_overflow hdata hcount] at hget
      cases hget

/-- A request that is answered is a step. -/
theorem Sound.perform_step {r : Request} {o : Outcome Answer} (h : c.Sound lists [] [])
    (hperform : c.perform r = .ok o) :
    ∃ lists', Step c lists ⟨r, o.answer, o.events⟩ o.cache lists' := by
  cases r with
  | put key data =>
      obtain ⟨o', hput, hperform⟩ := eq_ok_of_bind hperform
      cases hperform
      exact h.put_step hput
  | get key =>
      obtain ⟨o', hget, hperform⟩ := eq_ok_of_bind hperform
      cases hperform
      exact ⟨lists, h.get_step hget⟩
  | contains key =>
      obtain ⟨b, hcontains, hiff⟩ := h.contains_spec key
      obtain ⟨b', hduring, hperform⟩ := eq_ok_of_bind hperform
      cases hperform
      rw [hcontains] at hduring
      cases hduring
      exact ⟨lists, .checked hiff⟩
  | empty =>
      cases hperform
      exact ⟨_, .emptied⟩
  | stats reset =>
      obtain ⟨o', hstats, hperform⟩ := eq_ok_of_bind hperform
      cases hperform
      obtain ⟨occupancy, rfl⟩ := stats_eq_ok hstats
      exact ⟨lists, .reported⟩
  | occupancy =>
      obtain ⟨report, _, hperform⟩ := eq_ok_of_bind hperform
      cases hperform
      exact ⟨lists, .measured⟩

/-! ## Many requests -/

/-- `c`, with these lists, is what `turns` have made of a fresh cache. -/
inductive Trace : List Turn → Cache → (Nat → List Nat) → Prop where
  | fresh {c : Cache} : c.Fresh → Trace [] c (blankLists c.layout)
  | step {turns : List Turn} {c c' : Cache} {lists lists' : Nat → List Nat} {turn : Turn} :
      Trace turns c lists → Step c lists turn c' lists' → Trace (turns ++ [turn]) c' lists'

theorem Trace.sound (h : Trace turns c lists) : c.Sound lists [] [] := by
  induction h with
  | fresh hfresh => exact hfresh.sound.1
  | step _ hstep ih => exact hstep.sound ih

theorem Trace.of_snoc {turn : Turn} (h : Trace (turns ++ [turn]) c' lists') :
    ∃ c lists, Trace turns c lists ∧ Step c lists turn c' lists' := by
  generalize hall : turns ++ [turn] = all at h
  cases h with
  | fresh _ => simp at hall
  | step htrace hstep =>
      obtain ⟨rfl, hturn⟩ := List.append_inj' hall rfl
      cases hturn
      exact ⟨_, _, htrace, hstep⟩

/-- A run that goes on from a trace lengthens it. -/
theorem Trace.run {requests : List Request} {before : List Turn} (h : Trace before c lists)
    (hrun : c.run requests = .ok (turns, c')) : ∃ lists', Trace (before ++ turns) c' lists' := by
  induction requests generalizing before c lists turns with
  | nil =>
      cases hrun
      exact ⟨lists, by rwa [List.append_nil]⟩
  | cons r rest ih =>
      obtain ⟨o, hperform, hrun⟩ := eq_ok_of_bind hrun
      obtain ⟨⟨turns', last⟩, hrest, hrun⟩ := eq_ok_of_bind hrun
      cases hrun
      obtain ⟨lists₁, hstep⟩ := h.sound.perform_step hperform
      obtain ⟨lists', htrace⟩ := ih (h.step hstep) hrest
      exact ⟨lists', by rwa [List.append_assoc] at htrace⟩

theorem Trace.of_run {c₀ : Cache} {requests : List Request} (hfresh : c₀.Fresh)
    (hrun : c₀.run requests = .ok (turns, c)) : ∃ lists, Trace turns c lists :=
  (Trace.fresh hfresh).run hrun

/-- A run can be cut anywhere. -/
theorem run_append {c₀ : Cache} {requests : List Request} {before after : List Turn}
    (hrun : c₀.run requests = .ok (before ++ after, c)) :
    ∃ c₁, c₀.run (requests.take before.length) = .ok (before, c₁) ∧
      c₁.run (requests.drop before.length) = .ok (after, c) := by
  -- Every turn before the cut answers one request.
  induction before generalizing c₀ requests with
  | nil => exact ⟨c₀, rfl, hrun⟩
  | cons first before ih =>
      cases requests with
      | nil => cases hrun
      | cons r rest =>
          obtain ⟨o, hperform, hrun⟩ := eq_ok_of_bind hrun
          obtain ⟨⟨turns', last⟩, hrest, hrun⟩ := eq_ok_of_bind hrun
          cases hrun
          obtain ⟨c₁, hbefore, hafter⟩ := ih hrest
          refine ⟨c₁, ?_, hafter⟩
          simp only [List.length_cons, List.take_succ_cons, run, hperform, ok_bind, hbefore]
          rfl

/-- A run can be taken apart at each of its turns. -/
theorem run_split {c₀ : Cache} {requests : List Request} {before after : List Turn} {turn : Turn}
    (hrun : c₀.run requests = .ok (before ++ turn :: after, c)) :
    ∃ c₁ c₂, c₀.run (requests.take before.length) = .ok (before, c₁) ∧
      c₁.perform turn.request = .ok ⟨turn.answer, c₂, turn.events⟩ ∧
      c₂.run (requests.drop (before.length + 1)) = .ok (after, c) := by
  obtain ⟨c₁, hbefore, hafter⟩ := run_append hrun
  rw [← List.tail_drop]
  cases hrequests : requests.drop before.length with
  | nil =>
      rw [hrequests] at hafter
      cases hafter
  | cons r rest =>
      rw [hrequests] at hafter
      obtain ⟨o, hperform, hafter⟩ := eq_ok_of_bind hafter
      obtain ⟨⟨turns', last⟩, hrest, hafter⟩ := eq_ok_of_bind hafter
      cases hafter
      exact ⟨c₁, o.cache, hbefore, hperform, hrest⟩

/-- `c` is the end of some run of requests to a fresh cache. -/
def Reachable (c : Cache) : Prop :=
  ∃ (c₀ : Cache) (requests : List Request) (turns : List Turn),
    c₀.Fresh ∧ c₀.run requests = .ok (turns, c)

theorem Reachable.sound (h : c.Reachable) : ∃ lists, c.Sound lists [] [] := by
  rcases h with ⟨c₀, requests, turns, hfresh, hrun⟩
  obtain ⟨lists, htrace⟩ := Trace.of_run hfresh hrun
  exact ⟨lists, htrace.sound⟩

/-! ## The last tick -/

theorem run_put_cons {key : UInt32} {data : ByteArray}
    {o : Outcome (Except CacheError ByteArray)} {rest : List Request}
    (hput : c.put key data = .ok o) (hrest : o.cache.run rest = .ok (turns, c')) :
    c.run (.put key data :: rest) =
      .ok (⟨.put key data, .stored o.answer, o.events⟩ :: turns, c') := by
  simp only [run, perform, hput, ok_bind, pure, Except.pure, hrest]

/-- Putting one item again and again moves the clock by one each time, up to its last tick. -/
theorem Sound.run_puts (h : c.Sound lists [] []) (key : UInt32) (data : ByteArray)
    (hpos : 0 < data.size) (hle : data.size ≤ c.layout.storeLength) (n : Nat)
    (htime : c.time + n + 1 < Word.limit) :
    ∃ turns c' lists', c.run (List.replicate (n + 1) (.put key data)) = .ok (turns, c') ∧
      c'.Sound lists' [] [] ∧ c'.Holds lists' key data ∧ c'.layout = c.layout ∧
      c'.time = c.time + n + 1 := by
  induction n generalizing c lists with
  | zero =>
      obtain ⟨es, id, extent, c', lists', hput, hputs⟩ := h.put_spec key (by omega) hpos hle
      exact ⟨_, c', lists', run_put_cons hput rfl, hputs.sound,
        (hputs.holds_iff h).2 (Or.inl ⟨rfl, rfl⟩), hputs.layout_eq, hputs.time_eq⟩
  | succ n ih =>
      obtain ⟨es, id, extent, c₁, lists₁, hput, hputs⟩ := h.put_spec key (by omega) hpos hle
      have htime₁ := hputs.time_eq
      obtain ⟨turns, c', lists', hrun, hsound, hholds, hlayout, hlast⟩ :=
        ih hputs.sound (hputs.layout_eq ▸ hle) (by omega)
      refine ⟨_, c', lists', run_put_cons hput hrun, hsound, hholds,
        hlayout.trans hputs.layout_eq, ?_⟩
      calc
        c'.time = c₁.time + n + 1 := hlast
        _ = c.time + 1 + n + 1 := by rw [htime₁]
        _ = c.time + (n + 1) + 1 := by rw [Nat.add_assoc c.time, Nat.add_comm 1]

/-- Some run leads to the last tick, at which the next put or hit would stop. -/
theorem exists_last_tick :
    ∃ requests turns c lists, smallest.run requests = .ok (turns, c) ∧
      c.Sound lists [] [] ∧ c.Holds lists 0 ⟨#[0]⟩ ∧ c.layout = smallest.layout ∧
      Word.limit ≤ c.time + 1 := by
  -- As many puts as it takes; the run is not computed.
  obtain ⟨turns, c, lists, hrun, hsound, hholds, hlayout, htime⟩ :=
    fresh_smallest.sound.1.run_puts 0 ⟨#[0]⟩ (by decide) (by decide) (Word.limit - 2)
      (by decide)
  refine ⟨_, turns, c, lists, hrun, hsound, hholds, hlayout, ?_⟩
  rw [htime]
  decide

end Cache
end BlockCache

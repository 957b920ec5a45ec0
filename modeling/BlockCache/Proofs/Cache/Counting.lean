import BlockCache.Proofs.Cache.Trace
import Mathlib.Data.List.Count

/-!
# Counting — what turns do to the counters and the clock

* `Turn.count t n` — what the turn `t` makes of the counters `n`;
* `Turn.clock t time` — what it makes of the clock;
* `ticksIn turns`, `bumpsIn turns` — how often the clock ticks, and how often a counter goes up.

Counters are read off what a request answers and reports, whatever state the cache is in
(`perform_counters`), and so is the clock of a sound cache (`Step.time_eq`). So no counter is beyond
the number of times that a counter has gone up (`run_counters_le`).
-/

namespace BlockCache

/-! ## Turns -/

def Event.isEviction : Event → Bool
  | .evicted _ => true
  | _ => false

/-- The number of evictions among some events. -/
def evictionsIn (events : List Event) : Nat :=
  events.countP Event.isEviction

theorem evictionsIn_map (es : List Eviction) : evictionsIn (es.map .evicted) = es.length := by
  rw [evictionsIn, List.countP_map, List.countP_eq_length]
  exact fun _ _ => rfl

namespace Turn

def evictions (t : Turn) : Nat :=
  evictionsIn t.events

/-- The counters after a turn. -/
def count (t : Turn) (n : Counters) : Counters :=
  match t.request, t.answer with
  | .put .., _ => ⟨n.hits, n.misses, n.evictions + t.evictions⟩
  | .get _, .found (some _) => { n with hits := n.hits + 1 }
  | .get _, _ => { n with misses := n.misses + 1 }
  | .empty, _ => {}
  | .stats true, _ => {}
  | _, _ => n

/-- The clock ticks for an item that is stored and for one that is found. -/
def ticks (t : Turn) : Bool :=
  match t.answer with
  | .stored (.ok _) => true
  | .found (some _) => true
  | _ => false

/-- The clock after a turn. -/
def clock (t : Turn) (time : Nat) : Nat :=
  match t.answer with
  | .emptied => 0
  | _ => if t.ticks then time + 1 else time

def isLookup (t : Turn) : Bool :=
  match t.request with
  | .get _ => true
  | _ => false

/-- How often a counter goes up in a turn: once for a lookup, and once for each eviction. -/
def bumps (t : Turn) : Nat :=
  (if t.isLookup then 1 else 0) + t.evictions

end Turn

/-- How often the clock has ticked in these turns. -/
def ticksIn (turns : List Turn) : Nat :=
  turns.countP Turn.ticks

/-- How often a counter has gone up in these turns. -/
def bumpsIn (turns : List Turn) : Nat :=
  sumOf (turns.map Turn.bumps)

/-- All that a cache has counted. -/
def Counters.total (n : Counters) : Nat :=
  n.hits + n.misses + n.evictions

namespace Cache

variable {c c' c'' : Cache} {events events' : List Event} {key : UInt32} {data : ByteArray}

/-! ## Evictions are counted as they are reported -/

/-- Only evictions have been counted on the way from `c` to `c'`, those of `events`. -/
def Counts (c : Cache) (events : List Event) (c' : Cache) : Prop :=
  c'.counters =
    ⟨c.counters.hits, c.counters.misses, c.counters.evictions + evictionsIn events⟩

theorem Counts.of_eq (h : c'.counters = c.counters) (hnone : evictionsIn events = 0) :
    c.Counts events c' := by
  rw [Counts, h, hnone]
  rfl

theorem Counts.trans (h : c.Counts events c') (h' : c'.Counts events' c'') :
    c.Counts (events ++ events') c'' := by
  rw [Counts] at h h' ⊢
  rw [h', h, evictionsIn, evictionsIn, evictionsIn, List.countP_append, Nat.add_assoc]

/-- Steps that count nothing may come before and after. -/
theorem Counts.congr {c₁ c₂ : Cache} (h : c₁.Counts events c₂) (hbefore : c₁.counters = c.counters)
    (hafter : c'.counters = c₂.counters) : c.Counts events c' := by
  rw [Counts] at h ⊢
  rw [hafter, h, hbefore]

/-- Where nothing is evicted, nothing is reported. -/
theorem evict_counts {o : Outcome (Option Eviction)} (h : c.evict = .ok o) :
    c.Counts o.events o.cache ∧ (o.answer = none → o.events = []) := by
  obtain ⟨⟨answer, k⟩, _, h⟩ := eq_ok_of_bind h
  cases answer with
  | none =>
      cases h
      exact ⟨.of_eq rfl rfl, fun _ => rfl⟩
  | some e =>
      obtain ⟨_, h⟩ := eq_ok_of_guard h
      obtain ⟨counters, hcounted, h⟩ := eq_ok_of_bind h
      cases h
      exact ⟨Counters.evict_eq_ok (eq_ok_of_during hcounted), fun hnone => by cases hnone⟩

/-- The loop finds space, runs out of items or goes on after an eviction. -/
theorem allocateWithin_cases {length count : Nat} {o : Outcome (Option Nat)}
    (h : c.allocateWithin length count = .ok o) :
    (∃ offset free, o = ⟨some offset, c.withFree free, []⟩) ∨
      ∃ evicted, c.evict = .ok evicted ∧
        (evicted.answer = none ∧ o = ⟨none, evicted.cache, []⟩ ∨
          ∃ n rest, count = n + 1 ∧ evicted.cache.allocateWithin length n = .ok rest ∧
            o = ⟨rest.answer, rest.cache, evicted.events ++ rest.events⟩) := by
  unfold allocateWithin at h
  cases hfree : c.catalog.free.allocate length with
  | some found =>
      simp only [hfree] at h
      cases h
      exact Or.inl ⟨_, _, rfl⟩
  | none =>
      simp only [hfree] at h
      obtain ⟨evicted, hevict, h⟩ := eq_ok_of_bind h
      refine Or.inr ⟨evicted, hevict, ?_⟩
      cases hanswer : evicted.answer with
      | none =>
          simp only [hanswer] at h
          cases h
          exact Or.inl ⟨rfl, rfl⟩
      | some e =>
          simp only [hanswer] at h
          cases count with
          | zero => cases h
          | succ n =>
              obtain ⟨rest, hrest, h⟩ := eq_ok_of_bind h
              cases h
              exact Or.inr ⟨n, rest, rfl, hrest, rfl⟩

theorem allocateWithin_counts {length count : Nat} {o : Outcome (Option Nat)}
    (h : c.allocateWithin length count = .ok o) : c.Counts o.events o.cache := by
  -- Every eviction leaves a smaller bound for the evictions that may follow.
  induction count using Nat.strong_induction_on generalizing c o with
  | _ count ih =>
      rcases allocateWithin_cases h with ⟨_, _, rfl⟩ | ⟨evicted, hevict, ⟨hnone, rfl⟩ | hrest⟩
      · exact .of_eq rfl rfl
      · have hcounts := (evict_counts hevict).1
        rwa [(evict_counts hevict).2 hnone] at hcounts
      · obtain ⟨n, rest, rfl, hrest, rfl⟩ := hrest
        exact (evict_counts hevict).1.trans (ih n (Nat.lt_succ_self n) hrest)

theorem claim_counters {id : Option Nat} (h : c.claim = .ok (id, c')) :
    c'.counters = c.counters := by
  obtain ⟨⟨id', d⟩, _, h⟩ := eq_ok_of_bind h
  cases h
  rfl

theorem acquire_counts {o : Outcome (Option Nat)} (h : c.acquire = .ok o) :
    c.Counts o.events o.cache := by
  obtain ⟨⟨id, c₁⟩, hclaim, h⟩ := eq_ok_of_bind h
  have hcounters := claim_counters hclaim
  cases id with
  | some id =>
      cases h
      exact .of_eq hcounters rfl
  | none =>
      -- No entry is spare, so an item has to go for one.
      obtain ⟨evicted, hevict, h⟩ := eq_ok_of_bind h
      obtain ⟨hcounts, hevents⟩ := evict_counts hevict
      cases hanswer : evicted.answer with
      | none =>
          simp only [hanswer] at h
          cases h
          rw [hevents hanswer] at hcounts
          exact hcounts.congr hcounters rfl
      | some e =>
          simp only [hanswer] at h
          obtain ⟨⟨id', c₂⟩, hclaim', h⟩ := eq_ok_of_bind h
          cases h
          exact hcounts.congr hcounters (claim_counters hclaim')

theorem forget_counters {found : Bool} (h : c.forget key = .ok (found, c')) :
    c'.counters = c.counters := by
  obtain ⟨place, _, h⟩ := eq_ok_of_bind h
  cases place with
  | none =>
      cases h
      rfl
  | some place =>
      obtain ⟨k, _, h⟩ := eq_ok_of_bind h
      obtain ⟨_, h⟩ := eq_ok_of_guard h
      cases h
      rfl

theorem write_counters {offset : Nat} (h : c.write offset data = .ok c') :
    c'.counters = c.counters := by
  unfold write at h
  split_ifs at h
  cases h
  rfl

theorem tick_counters {now : Nat} (h : c.tick = .ok (now, c')) : c'.counters = c.counters := by
  obtain ⟨next, _, h⟩ := eq_ok_of_bind h
  cases h
  rfl

theorem enter_counters {id dataLength : Nat} {extent : Extent}
    (h : c.enter id key extent dataLength = .ok c') : c'.counters = c.counters := by
  obtain ⟨⟨now, c₁⟩, htick, h⟩ := eq_ok_of_bind h
  obtain ⟨k, _, h⟩ := eq_ok_of_bind h
  obtain ⟨len, _, h⟩ := eq_ok_of_bind h
  cases h
  exact (tick_counters htick :)

theorem insert_counts {length : Nat} {o : Outcome (Except CacheError ByteArray)}
    (h : c.insert key data length = .ok o) : c.Counts o.events o.cache := by
  obtain ⟨⟨_, c₁⟩, hforget, h⟩ := eq_ok_of_bind h
  obtain ⟨space, hspace, h⟩ := eq_ok_of_bind h
  have hspace : c.Counts space.events space.cache :=
    (allocateWithin_counts hspace).congr (forget_counters hforget) rfl
  cases hanswer : space.answer with
  | none =>
      simp only [hanswer] at h
      cases h
      exact hspace
  | some offset =>
      simp only [hanswer] at h
      obtain ⟨c₂, hwrite, h⟩ := eq_ok_of_bind h
      obtain ⟨found, hfound, h⟩ := eq_ok_of_bind h
      have hboth : c.Counts (space.events ++ found.events) found.cache :=
        hspace.trans ((acquire_counts hfound).congr (write_counters hwrite) rfl)
      cases hid : found.answer with
      | none =>
          simp only [hid] at h
          obtain ⟨free, _, h⟩ := eq_ok_of_bind h
          cases h
          exact hboth
      | some id =>
          simp only [hid] at h
          obtain ⟨c₃, henter, h⟩ := eq_ok_of_bind h
          obtain ⟨stored, _, h⟩ := eq_ok_of_bind h
          cases h
          exact hboth.congr rfl (enter_counters henter)

theorem put_counts {o : Outcome (Except CacheError ByteArray)} (h : c.put key data = .ok o) :
    c.Counts o.events o.cache := by
  unfold put at h
  split_ifs at h with hempty
  · cases h
    exact .of_eq rfl rfl
  · split at h
    · exact insert_counts h
    · cases h
      exact .of_eq rfl rfl

/-! ## Every request -/

theorem get_counters {o : Outcome (Option ByteArray)} (h : c.get key = .ok o) :
    o.cache.counters = Turn.count ⟨.get key, .found o.answer, o.events⟩ c.counters := by
  obtain ⟨place, _, h⟩ := eq_ok_of_bind h
  cases place with
  | none =>
      obtain ⟨counters, hcounted, h⟩ := eq_ok_of_bind h
      cases h
      exact Counters.miss_eq_ok (eq_ok_of_during hcounted)
  | some place =>
      obtain ⟨⟨now, c₁⟩, htick, h⟩ := eq_ok_of_bind h
      obtain ⟨d, _, h⟩ := eq_ok_of_bind h
      obtain ⟨e, _, h⟩ := eq_ok_of_bind h
      obtain ⟨counters, hcounted, h⟩ := eq_ok_of_bind h
      obtain ⟨bytes, _, h⟩ := eq_ok_of_bind h
      cases h
      rw [← tick_counters htick]
      exact Counters.hit_eq_ok (eq_ok_of_during hcounted)

theorem perform_counters {r : Request} {o : Outcome Answer} (h : c.perform r = .ok o) :
    o.cache.counters = Turn.count ⟨r, o.answer, o.events⟩ c.counters := by
  cases r with
  | put key data =>
      obtain ⟨o', hput, h⟩ := eq_ok_of_bind h
      cases h
      exact put_counts hput
  | get key =>
      obtain ⟨o', hget, h⟩ := eq_ok_of_bind h
      cases h
      exact get_counters hget
  | contains key =>
      obtain ⟨b, _, h⟩ := eq_ok_of_bind h
      cases h
      rfl
  | empty =>
      cases h
      rfl
  | stats reset =>
      obtain ⟨o', hstats, h⟩ := eq_ok_of_bind h
      cases h
      obtain ⟨occupancy, rfl⟩ := stats_eq_ok hstats
      cases reset <;> rfl
  | occupancy =>
      obtain ⟨report, _, h⟩ := eq_ok_of_bind h
      cases h
      rfl

/-- A report has the counters as they were before it. -/
theorem perform_summary {r : Request} {o : Outcome Answer} {summary : Summary}
    (h : c.perform r = .ok o) (hanswer : o.answer = .stats summary) :
    summary.counters = c.counters := by
  cases r with
  | stats reset =>
      obtain ⟨o', hstats, h⟩ := eq_ok_of_bind h
      cases h
      cases hanswer
      obtain ⟨occupancy, rfl⟩ := stats_eq_ok hstats
      rfl
  | empty =>
      cases h
      cases hanswer
  | _ =>
      obtain ⟨_, _, h⟩ := eq_ok_of_bind h
      cases h
      cases hanswer

theorem Step.time_eq {lists lists' : Nat → List Nat} {t : Turn} (h : Step c lists t c' lists') :
    c'.time = t.clock c.time := by
  cases h with
  | stored hputs => exact hputs.time_eq
  | _ => rfl

/-! ## Every run -/

/-- A turn adds its lookups and evictions to what is counted, or clears it, or leaves it. -/
theorem total_count_le (t : Turn) (n : Counters) : (t.count n).total ≤ n.total + t.bumps := by
  obtain ⟨r, answer, events⟩ := t
  simp only [Counters.total, Turn.bumps, Turn.isLookup]
  cases r with
  | put key data => simp only [Turn.count]; omega
  | get key =>
      cases answer with
      | found bytes =>
          cases bytes <;> simp only [Turn.count, if_true] <;> omega
      | _ => simp only [Turn.count, if_true]; omega
  | contains key => simp only [Turn.count]; omega
  | empty => simp only [Turn.count]; omega
  | stats reset => cases reset <;> simp only [Turn.count] <;> omega
  | occupancy => simp only [Turn.count]; omega

theorem run_counters_le {requests : List Request} {turns : List Turn}
    (h : c.run requests = .ok (turns, c')) :
    c'.counters.total ≤ c.counters.total + bumpsIn turns ∧
      ∀ t ∈ turns, ∀ summary, t.answer = .stats summary →
        summary.counters.total ≤ c.counters.total + bumpsIn turns := by
  induction requests generalizing c turns with
  | nil =>
      cases h
      exact ⟨Nat.le_refl _, by simp⟩
  | cons r rest ih =>
      obtain ⟨o, hperform, h⟩ := eq_ok_of_bind h
      obtain ⟨⟨turns', last⟩, hrest, h⟩ := eq_ok_of_bind h
      cases h
      obtain ⟨hend, hreports⟩ := ih hrest
      have hstep : o.cache.counters.total ≤
          c.counters.total + Turn.bumps ⟨r, o.answer, o.events⟩ := by
        rw [perform_counters hperform]
        exact total_count_le _ _
      have hsum : bumpsIn (⟨r, o.answer, o.events⟩ :: turns') =
          Turn.bumps ⟨r, o.answer, o.events⟩ + bumpsIn turns' := rfl
      rw [hsum]
      refine ⟨by omega, List.forall_mem_cons.2 ⟨fun summary hanswer => ?_, ?_⟩⟩
      · rw [perform_summary hperform hanswer]
        exact Nat.le_add_right _ _
      · intro t ht summary hanswer
        have hreport := hreports t ht summary hanswer
        omega

theorem Fresh.counters_le {requests : List Request} {turns : List Turn} (hfresh : c.Fresh)
    (h : c.run requests = .ok (turns, c')) :
    c'.counters.total ≤ bumpsIn turns ∧
      ∀ t ∈ turns, ∀ summary, t.answer = .stats summary →
        summary.counters.total ≤ bumpsIn turns := by
  have hzero : c.counters.total = 0 := by
    rw [hfresh.sound.2.2]
    rfl
  have hle := run_counters_le h
  rwa [hzero, Nat.zero_add] at hle

theorem Trace.time_le_ticks {turns : List Turn} {lists : Nat → List Nat}
    (h : Trace turns c lists) : c.time ≤ ticksIn turns := by
  induction h with
  | fresh hfresh =>
      rw [hfresh.sound.2.1]
      exact Nat.zero_le _
  | @step turns c c' _ _ t _ hstep ih =>
      -- The clock goes on by one tick at most, and back to zero when the cache is emptied.
      have hclock : t.clock c.time ≤ c.time + if t.ticks then 1 else 0 := by
        simp only [Turn.clock]
        split <;> split_ifs <;> omega
      rw [hstep.time_eq, ticksIn, List.countP_append, List.countP_singleton]
      rw [ticksIn] at ih
      omega

end Cache
end BlockCache

import BlockCache.Proofs.Cache.Queue
import BlockCache.Proofs.Cache.Room

/-!
# Conservation — counters and items against the history

* `sinceCleared turns` — the turns after the last one that cleared the counters;
* `tally turns` — the hits, misses and evictions that can be read off `turns`;
* `c.calls requests` — the requests with the caches that they were made to;
* `Balanced calls c` — `c` has the counters and the number of items that `calls` tell.

The counters are kept by the lookups and evictions, the number of items by the puts and evictions,
and each of the two is reset by other requests. Both stay in balance with the history through every
request (`Balanced.snoc`), so they do over every run (`run_conserves`).
-/

namespace BlockCache

/-! ## What a history tells -/

namespace Turn

/-- The request was a lookup that found nothing. -/
def misses (t : Turn) : Bool :=
  match t.answer with
  | .found none => true
  | _ => false

/-- The counters are cleared after the turn. -/
def clears (t : Turn) : Bool :=
  match t.request with
  | .empty => true
  | .stats reset => reset
  | _ => false

end Turn

def sinceCleared (turns : List Turn) : List Turn :=
  turns.rtakeWhile fun t => !t.clears

def tally (turns : List Turn) : Counters where
  hits := turns.countP Turn.hits
  misses := turns.countP Turn.misses
  evictions := evictionsIn (turns.flatMap Turn.events)

/-- A turn with the cache as it was before. -/
structure Call where
  cache : Cache
  turn : Turn

/-- The cache answers that it does not contain the key. -/
def Cache.lacks (c : Cache) (key : UInt32) : Bool :=
  (c.contains key).toOption == some false

/-- An item is stored under a key that the cache did not contain. -/
def Call.admits (x : Call) : Bool :=
  match x.turn.request, x.turn.answer with
  | .put key _, .stored (.ok _) => x.cache.lacks key
  | _, _ => false

/-- The requests up to the first one that stops, with their caches. -/
def Cache.calls (c : Cache) : List Request → List Call
  | [] => []
  | r :: rest =>
      match c.perform r with
      | .ok o => ⟨c, ⟨r, o.answer, o.events⟩⟩ :: o.cache.calls rest
      | .error _ => []

/-- The calls after the last one that emptied the cache. -/
def callsSinceEmptied (calls : List Call) : List Call :=
  calls.rtakeWhile fun x => !x.turn.empties

variable {turns : List Turn} {t : Turn} {calls : List Call} {x : Call}

theorem evictionsIn_flatMap_snoc {α : Type} (l : List α) (a : α) (f : α → List Event) :
    evictionsIn ((l ++ [a]).flatMap f) = evictionsIn (l.flatMap f) + evictionsIn (f a) := by
  rw [List.flatMap_append, List.flatMap_singleton, evictionsIn, List.countP_append]
  rfl

theorem tally_snoc : tally (turns ++ [t]) =
    ⟨(tally turns).hits + (if t.hits then 1 else 0),
      (tally turns).misses + (if t.misses then 1 else 0),
      (tally turns).evictions + t.evictions⟩ := by
  simp only [tally, List.countP_append, List.countP_singleton, evictionsIn_flatMap_snoc,
    Turn.evictions]

theorem sinceCleared_snoc :
    sinceCleared (turns ++ [t]) = if t.clears then [] else sinceCleared turns ++ [t] := by
  rw [sinceCleared, List.rtakeWhile_concat]
  cases t.clears <;> rfl

theorem callsSinceEmptied_snoc : callsSinceEmptied (calls ++ [x]) =
    if x.turn.empties then [] else callsSinceEmptied calls ++ [x] := by
  rw [callsSinceEmptied, List.rtakeWhile_concat]
  cases x.turn.empties <;> rfl

namespace Cache

variable {c c' : Cache} {lists lists' : Nat → List Nat} {key : UInt32} {data : ByteArray}
  {r : Request}

theorem calls_cons {o : Outcome Answer} {rest : List Request} (h : c.perform r = .ok o) :
    c.calls (r :: rest) = ⟨c, ⟨r, o.answer, o.events⟩⟩ :: o.cache.calls rest := by
  rw [calls, h]

/-! ## What a turn changes -/

/-- The history of a turn tells what the turn counts. -/
theorem Step.tally_eq (h : Step c lists t c' lists') :
    tally (sinceCleared (turns ++ [t])) = t.count (tally (sinceCleared turns)) := by
  have hidle : t.clears = false → tally (sinceCleared (turns ++ [t])) =
      ⟨(tally (sinceCleared turns)).hits + (if t.hits then 1 else 0),
        (tally (sinceCleared turns)).misses + (if t.misses then 1 else 0),
        (tally (sinceCleared turns)).evictions + t.evictions⟩ := by
    intro hclears
    rw [sinceCleared_snoc, hclears, ← tally_snoc]
    rfl
  cases h with
  | emptied =>
      rw [sinceCleared_snoc]
      rfl
  | @reported reset _ =>
      cases reset with
      | true =>
          rw [sinceCleared_snoc]
          rfl
      | false => exact hidle rfl
  | _ => exact hidle rfl

theorem lacks_eq {found : Bool} (h : c.contains key = .ok found) : c.lacks key = !found := by
  rw [lacks, h]
  cases found <;> rfl

/-- A turn adds one to the hits and misses if it is a lookup. -/
theorem Step.lookups_eq (h : Step c lists t c' lists') (n : Counters) :
    (t.count n).hits + (t.count n).misses =
      if t.clears then 0 else n.hits + n.misses + if t.isLookup then 1 else 0 := by
  cases h with
  | hit => exact Nat.add_right_comm _ _ _
  | @reported reset _ => cases reset <;> rfl
  | _ => rfl

/-- A put that stores an item under a new key makes the cache longer by one, and each eviction makes
it shorter by one. -/
theorem Sound.put_len {o : Outcome (Except CacheError ByteArray)} (h : c.Sound lists [] [])
    (hput : c.put key data = .ok o) : o.cache.len + evictionsIn o.events = c.len +
      if Call.admits ⟨c, ⟨.put key data, .stored o.answer, o.events⟩⟩ then 1 else 0 := by
  rcases Nat.eq_zero_or_pos data.size with hempty | hpos
  · rw [put_empty hempty] at hput
    cases hput
    rfl
  rcases Nat.lt_or_ge c.layout.storeLength data.size with hbig | hle
  · rw [put_tooBig hbig] at hput
    cases hput
    rfl
  obtain ⟨length, hround, hinsert, ⟨p⟩⟩ := h.exists_put_course key hpos hle
  rcases Nat.lt_or_ge (c.time + 1) Word.limit with htime | htime
  · obtain ⟨c', lists', hok, _, hlen⟩ := p.insert_spec h htime hpos hround
    rw [hinsert, hok] at hput
    cases hput
    -- The item that is dropped first is the one of the same key.
    obtain ⟨hfound, hdropped⟩ := forget_found p.forget_eq
    have hnew : (if c.lacks key then 1 else 0) + p.found.toNat = 1 := by
      rw [lacks_eq hfound]
      cases p.found <;> rfl
    rw [evictionsIn_map]
    show c'.len + p.victims.length = c.len + if c.lacks key then 1 else 0
    omega
  · obtain ⟨i, herror, _⟩ := p.insert_overflow h htime hpos hround
    rw [hinsert, herror] at hput
    cases hput

theorem Sound.perform_len {o : Outcome Answer} (h : c.Sound lists [] [])
    (hperform : c.perform r = .ok o) (hr : r ≠ .empty) :
    o.cache.len + evictionsIn o.events = c.len +
      if Call.admits ⟨c, ⟨r, o.answer, o.events⟩⟩ then 1 else 0 := by
  cases r with
  | put key data =>
      obtain ⟨o', hput, hperform⟩ := eq_ok_of_bind hperform
      cases hperform
      exact h.put_len hput
  | empty => exact absurd rfl hr
  | _ =>
      obtain ⟨lists', hstep⟩ := h.perform_step hperform
      obtain ⟨answer, c', events⟩ := o
      cases hstep <;> rfl

/-! ## What a run keeps -/

/-- The counters and the number of items are those that the calls tell. -/
structure Balanced (calls : List Call) (c : Cache) : Prop where
  counters_eq : c.counters = tally (sinceCleared (calls.map Call.turn))
  lookups_eq : c.counters.hits + c.counters.misses =
    (sinceCleared (calls.map Call.turn)).countP Turn.isLookup
  len_eq : c.len + evictionsIn ((callsSinceEmptied calls).flatMap fun x => x.turn.events) =
    (callsSinceEmptied calls).countP Call.admits

theorem Balanced.fresh (h : c.Fresh) : Balanced [] c where
  counters_eq := h.sound.2.2
  lookups_eq := by
    rw [h.sound.2.2]
    rfl
  len_eq := by
    rw [h.sound.1.len_eq, h.sound.1.rows_blank]
    rfl

theorem Balanced.snoc {o : Outcome Answer} (h : Balanced calls c) (hc : c.Sound lists [] [])
    (hperform : c.perform r = .ok o) :
    Balanced (calls ++ [⟨c, ⟨r, o.answer, o.events⟩⟩]) o.cache := by
  obtain ⟨_, hstep⟩ := hc.perform_step hperform
  constructor
  · rw [List.map_append, List.map_singleton, hstep.tally_eq, ← h.counters_eq,
      perform_counters hperform]
  · rw [perform_counters hperform, hstep.lookups_eq, h.lookups_eq, List.map_append,
      List.map_singleton, sinceCleared_snoc]
    cases Turn.clears ⟨r, o.answer, o.events⟩ with
    | true => rfl
    | false =>
        rw [if_neg Bool.false_ne_true, if_neg Bool.false_ne_true, List.countP_append,
          List.countP_singleton]
  · rw [callsSinceEmptied_snoc]
    by_cases hr : r = .empty
    · subst hr
      cases hperform
      rfl
    · have hempties : Turn.empties ⟨r, o.answer, o.events⟩ = false := by
        cases r with
        | empty => exact absurd rfl hr
        | _ => rfl
      have hlen := hc.perform_len hperform hr
      have hbefore := h.len_eq
      simp only [hempties, Bool.false_eq_true, if_false, evictionsIn_flatMap_snoc,
        List.countP_append, List.countP_singleton]
      omega

theorem Sound.run_balanced {requests : List Request} {turns : List Turn}
    (h : c.Sound lists [] []) (hbefore : Balanced calls c)
    (hrun : c.run requests = .ok (turns, c')) :
    Balanced (calls ++ c.calls requests) c' ∧ (c.calls requests).map Call.turn = turns := by
  induction requests generalizing c lists calls turns with
  | nil =>
      cases hrun
      rw [Cache.calls, List.append_nil]
      exact ⟨hbefore, rfl⟩
  | cons r rest ih =>
      obtain ⟨o, hperform, hrun⟩ := eq_ok_of_bind hrun
      obtain ⟨⟨turns', last⟩, hrest, hrun⟩ := eq_ok_of_bind hrun
      cases hrun
      obtain ⟨lists', hstep⟩ := h.perform_step hperform
      obtain ⟨hbalanced, hturns⟩ := ih (hstep.sound h) (hbefore.snoc h hperform) hrest
      rw [calls_cons hperform, List.map_cons, hturns, ← List.singleton_append,
        ← List.append_assoc]
      exact ⟨hbalanced, rfl⟩

/-- After every run the cache has counted the hits, the misses and the reported evictions since its
counters were cleared last, and it has as many items as were stored under keys that it did not
contain, less the evictions, since it was emptied last. A lookup counts as one hit or one miss, by
whether it finds bytes; of the other requests, only those that clear the counters change these two.
-/
theorem run_conserves {c₀ : Cache} {requests : List Request} {turns : List Turn}
    (hfresh : c₀.Fresh) (hrun : c₀.run requests = .ok (turns, c)) :
    c.counters.hits + c.counters.misses = (sinceCleared turns).countP Turn.isLookup ∧
    c.counters = tally (sinceCleared turns) ∧
    (c₀.calls requests).map Call.turn = turns ∧
    c.len + evictionsIn ((callsSinceEmptied (c₀.calls requests)).flatMap fun x => x.turn.events) =
      (callsSinceEmptied (c₀.calls requests)).countP Call.admits ∧
    c.len ≤ c.layout.entryCount ∧
    (∀ reset o, c.stats reset = .ok o → o.answer.counters = c.counters) ∧
    (∀ key o, c.get key = .ok o →
      o.cache.counters = if o.answer.isSome then { c.counters with hits := c.counters.hits + 1 }
        else { c.counters with misses := c.counters.misses + 1 }) ∧
    ∀ r o, c.perform r = .ok o → (∀ key, r ≠ .get key) → r ≠ .empty → r ≠ .stats true →
      o.cache.counters.hits = c.counters.hits ∧ o.cache.counters.misses = c.counters.misses := by
  obtain ⟨lists, htrace⟩ := Trace.of_run hfresh hrun
  obtain ⟨hbalanced, hturns⟩ := hfresh.sound.1.run_balanced (.fresh hfresh) hrun
  rw [List.nil_append] at hbalanced
  refine ⟨hturns ▸ hbalanced.lookups_eq, hturns ▸ hbalanced.counters_eq, hturns, hbalanced.len_eq,
    ?_, fun reset o hstats => ?_, fun key o hget => ?_, fun r o hperform hget hempty hstats => ?_⟩
  · rw [← htrace.sound.entries_eq, ← htrace.sound.len_add_spare]
    exact Nat.le_add_right _ _
  · obtain ⟨_, rfl⟩ := stats_eq_ok hstats
    rfl
  · rw [get_counters hget]
    cases o.answer <;> rfl
  · rw [perform_counters hperform]
    cases r with
    | get key => exact absurd rfl (hget key)
    | empty => exact absurd rfl hempty
    | stats reset =>
        cases reset with
        | true => exact absurd rfl hstats
        | false => exact ⟨rfl, rfl⟩
    | _ => exact ⟨rfl, rfl⟩

/-- Three keys are put, one of them twice, and there are entries for two. One key is looked up that
has an item, and one that has none. -/
theorem run_conserves_two_entries :
    ∃ requests turns c, requests =
        [.put 1 ⟨#[1]⟩, .get 1, .get 9, .put 2 ⟨#[1]⟩, .put 1 ⟨#[2]⟩, .put 3 ⟨#[1]⟩] ∧
      smallest.run requests = .ok (turns, c) ∧ c.counters.hits = 1 ∧ c.counters.misses = 1 ∧
      c.counters.evictions = 1 ∧ c.len + 1 = 3 := by
  obtain ⟨requests, turns, c, hrequests, hrun, htally, hevictions, hadmits⟩ :
      ∃ requests turns c, requests =
          [.put 1 ⟨#[1]⟩, .get 1, .get 9, .put 2 ⟨#[1]⟩, .put 1 ⟨#[2]⟩, .put 3 ⟨#[1]⟩] ∧
        smallest.run requests = .ok (turns, c) ∧ tally (sinceCleared turns) = ⟨1, 1, 1⟩ ∧
        evictionsIn ((callsSinceEmptied (smallest.calls requests)).flatMap
          fun x => x.turn.events) = 1 ∧
        (callsSinceEmptied (smallest.calls requests)).countP Call.admits = 3 :=
    ⟨_, _, _, rfl, rfl, rfl, rfl, rfl⟩
  obtain ⟨_, hcounters, _, hlen, _⟩ := run_conserves fresh_smallest hrun
  rw [htally] at hcounters
  rw [hevictions, hadmits] at hlen
  exact ⟨requests, turns, c, hrequests, hrun, by rw [hcounters], by rw [hcounters],
    by rw [hcounters], hlen⟩

end Cache
end BlockCache

import BlockCache.Proofs.Cache.Sound

/-!
# Evict — evictions in a row

`d.Sheds lists es` says which items are evicted one after the other: each time the foremost of those
that are left. `c.Apportioned lists loose held` is as much of the invariant as evictions need, and
`EvictsWhile p c es c'` says that evicting from `c`, in states that satisfy `p`, reports `es` and
ends in `c'`. Making room and finding an entry are described by it: both evict while there is
nothing to take. In a sound cache both succeed in the end, because a cache without items has all its
space in one block and all its entries spare; how a search for space may end in any other cache is
listed by `SearchEnds`.
-/

namespace BlockCache

/-! ## What evictions take -/

namespace Directory

variable {d d' : Directory} {lists lists' : Nat → List Nat} {es es' : List Eviction}

/-- Each of `es` is about the foremost of the items that the ones before it have left. -/
def Sheds (d : Directory) : (Nat → List Nat) → List Eviction → Prop
  | _, [] => True
  | lists, e :: es => d.Foremost lists ⟨e.bin, e.id, e.time⟩ ∧ e = d.evictionOf e.bin e.id ∧
      d.Sheds (fun b => (lists b).filter (· ≠ e.id)) es

theorem Sheds.congr (h : d.Sheds lists es) (hsame : d.SameItems d')
    (hlists : ∀ b < d.binCount, lists' b = lists b) : d'.Sheds lists' es := by
  induction es generalizing lists lists' with
  | nil => trivial
  | cons e es ih =>
      rcases h with ⟨hforemost, hnamed, hrest⟩
      refine ⟨hforemost.congr hsame hlists, ?_, ih hrest fun b hb => by rw [hlists b hb]⟩
      rw [evictionOf, hsame.item_eq]
      exact hnamed

/-- Evictions go on with what the ones before have left. -/
theorem Sheds.append (h : d.Sheds lists es) (h' : d.Sheds lists' es')
    (hlists : ∀ b < d.binCount, lists' b = (lists b).filter (· ∉ es.map (·.id))) :
    d.Sheds lists (es ++ es') := by
  induction es generalizing lists with
  | nil => exact h'.congr (.refl d) fun b hb => by simp [hlists b hb]
  | cons e es ih =>
      rcases h with ⟨hforemost, hnamed, hrest⟩
      refine ⟨hforemost, hnamed, ih hrest fun b hb => ?_⟩
      rw [hlists b hb, List.filter_filter]
      exact List.filter_congr fun x _ => Bool.eq_iff_iff.2 (by simp [and_comm])

/-- Each eviction takes the foremost of what the ones before it have left. -/
theorem Sheds.foremost {before after : List Eviction} {e : Eviction}
    (h : d.Sheds lists (before ++ e :: after)) :
    d.Foremost (fun b => (lists b).filter (· ∉ before.map (·.id))) ⟨e.bin, e.id, e.time⟩ := by
  induction before generalizing lists with
  | nil => exact h.1.congr (.refl d) fun b _ => by simp
  | cons e' before ih =>
      rcases h with ⟨_, _, hrest⟩
      refine (ih hrest).congr (.refl d) fun b _ => ?_
      rw [List.filter_filter]
      exact List.filter_congr fun x _ => Bool.eq_iff_iff.2 (by simp [and_comm])

end Directory

namespace Cache

variable {c c' : Cache} {lists : Nat → List Nat} {loose : List Nat} {held : List Extent}
  {b id : Nat}

/-! ## One eviction -/

/-- The entries and the bytes of a cache are apportioned, and its items are counted right. This is
all that evictions need of it. -/
structure Apportioned (c : Cache) (lists : Nat → List Nat) (loose : List Nat)
    (held : List Extent) : Prop where
  catalog : c.catalog.Apportioned lists loose held
  len_eq : c.len = (rows lists c.catalog.directory.binCount).length

theorem Sound.apportioned (h : c.Sound lists loose held) : c.Apportioned lists loose held :=
  ⟨h.laid.apportioned, h.len_eq⟩

/-- What is evicted from a sound cache can be counted. -/
theorem Sound.evictions_lt (h : c.Sound lists loose held) (hpos : 0 < c.len) :
    c.counters.evictions + 1 < Word.limit := by
  have htime := h.time_lt
  have hcounted := h.counted_le
  omega

/-- `c'` is `c` after `n` items were evicted, as far as they are counted. -/
structure Evicted (c : Cache) (n : Nat) (c' : Cache) : Prop where
  len_add : c'.len + n = c.len
  counters_eq : c'.counters = { c.counters with evictions := c.counters.evictions + n }

theorem Evicted.trans {c'' : Cache} {m n : Nat} (h : c.Evicted m c') (h' : c'.Evicted n c'') :
    c.Evicted (m + n) c'' where
  len_add := by
    have hfirst := h.len_add
    have hsecond := h'.len_add
    omega
  counters_eq := by rw [h'.counters_eq, h.counters_eq, Nat.add_assoc]

/-- A sound cache that loses items by evictions is sound, as long as the rest is apportioned. -/
theorem Sound.of_keeps {lists' : Nat → List Nat} {loose' : List Nat} {held' : List Extent}
    {keep : Nat → Prop} [DecidablePred keep] {n : Nat} (h : c.Sound lists loose held)
    (hkeeps : c.Keeps lists keep c' lists') (h' : c'.Apportioned lists' loose' held')
    (hstore : c'.catalog.free.storeLength = c.catalog.free.storeLength) (hgone : c.Evicted n c') :
    c'.Sound lists' loose' held' where
  bins_eq := by
    rw [hkeeps.items.binCount_eq, hkeeps.layout_eq]
    exact h.bins_eq
  entries_eq := by
    rw [hkeeps.items.capacity_eq, hkeeps.layout_eq]
    exact h.entries_eq
  free_eq := by
    rw [hstore, hkeeps.layout_eq]
    exact h.free_eq
  store_eq := by
    rw [hkeeps.store_eq, hkeeps.layout_eq]
    exact h.store_eq
  inside := hkeeps.store_eq ▸ h.inside
  time_lt := hkeeps.time_eq ▸ h.time_lt
  counted_le := by
    -- What was counted as an item is counted as an eviction now.
    have hcounted := h.counted_le
    have hlen := hgone.len_add
    rw [hkeeps.time_eq, hgone.counters_eq]
    show c.counters.hits + (c.counters.evictions + n) + c'.len ≤ c.time
    omega
  laid := by
    refine h.laid.inherit h'.catalog hkeeps.items.binCount_eq hstore (fun b hb id hid => ?_)
      fun id => ⟨(c.catalog.directory.item id).time, by rw [hkeeps.items.item_eq]⟩
    rw [hkeeps.bins b hb] at hid
    exact List.mem_of_mem_filter hid
  len_eq := h'.len_eq

/-- There is an item to evict, unless there is no item at all. An eviction that cannot be counted
any more stops when its item has gone. -/
theorem Apportioned.evict_spec (h : c.Apportioned lists loose held) :
    (c.evict = .ok ⟨none, c, []⟩ ∧ rows lists c.catalog.directory.binCount = []) ∨
      (∃ e c', c.evict = .ok ⟨some e, c', [.evicted e]⟩ ∧
        e.bin < c.catalog.directory.binCount ∧ e.id ∈ lists e.bin ∧
        e = c.catalog.directory.evictionOf e.bin e.id ∧
        c'.Apportioned (moveToSpare lists c.catalog.directory.binCount e.bin e.id) loose held ∧
        c.Keeps lists (· ≠ e.id) c'
          (moveToSpare lists c.catalog.directory.binCount e.bin e.id) ∧
        c'.catalog.free.storeLength = c.catalog.free.storeLength ∧ c.Evicted 1 c' ∧
        c.catalog.directory.Foremost lists ⟨e.bin, e.id, e.time⟩) ∨
      (Word.limit ≤ c.counters.evictions + 1 ∧
        ∃ i, c.evict = .error i ∧ i.fault = .overflow ∧ i.len + 1 = c.len) := by
  rcases h.catalog.evict_spec with ⟨hevict, hempty⟩ | ⟨b, id, tail, k', hb, hlist, hevict, hleft,
    hsame, hstore, hforemost⟩
  · refine Or.inl ⟨?_, hempty⟩
    simp only [evict, hevict, during_ok, ok_bind]
    rfl
  have hmem : id ∈ lists b := by simp [hlist]
  have hlen := length_rows_moveToSpare hb hmem
  rw [← h.len_eq] at hlen
  have hpos : c.len ≠ 0 := by omega
  have hlost : c.len - 1 + 1 = c.len := Nat.sub_add_cancel (Nat.pos_of_ne_zero hpos)
  rcases Nat.lt_or_ge (c.counters.evictions + 1) Word.limit with hcount | hcount
  · have hcounted : c.len - 1 = (rows (moveToSpare lists c.catalog.directory.binCount b id)
        k'.directory.binCount).length := by
      rw [hsame.binCount_eq]
      omega
    have hkeeps := keeps_lose h.catalog.spells hb hmem (c.len - 1)
      { c.counters with evictions := c.counters.evictions + 1 } hsame
    refine Or.inr (Or.inl ⟨c.catalog.directory.evictionOf b id, _, ?_, hb, hmem, rfl,
      ⟨hleft, hcounted⟩, hkeeps, hstore, ⟨hlost, rfl⟩, hforemost⟩)
    simp only [evict, hevict, during_ok, ok_bind, if_neg hpos, Counters.evict_of_lt hcount]
    rfl
  · -- The item has gone from the catalog before the counter stops the eviction.
    refine Or.inr (Or.inr ⟨hcount,
      interruption { c with catalog := k', len := c.len - 1 } .overflow, ?_, rfl, hlost⟩)
    simp only [evict, hevict, during_ok, ok_bind, if_neg hpos, Counters.evict_of_le hcount]
    rfl

theorem Sound.evict_spec (h : c.Sound lists loose held) :
    (c.evict = .ok ⟨none, c, []⟩ ∧ rows lists c.catalog.directory.binCount = []) ∨
      ∃ e c', c.evict = .ok ⟨some e, c', [.evicted e]⟩ ∧
        e.bin < c.catalog.directory.binCount ∧ e.id ∈ lists e.bin ∧
        e = c.catalog.directory.evictionOf e.bin e.id ∧
        c'.Sound (moveToSpare lists c.catalog.directory.binCount e.bin e.id) loose held ∧
        c.Keeps lists (· ≠ e.id) c'
          (moveToSpare lists c.catalog.directory.binCount e.bin e.id) ∧
        c.Evicted 1 c' ∧ c.catalog.directory.Foremost lists ⟨e.bin, e.id, e.time⟩ := by
  rcases h.apportioned.evict_spec with hnone | ⟨e, c', hevict, hbin, hmem, hnamed, h', hkeeps,
    hstore, hgone, hforemost⟩ | ⟨hcount, i, _, _, hlen⟩
  · exact Or.inl hnone
  · exact Or.inr ⟨e, c', hevict, hbin, hmem, hnamed, h.of_keeps hkeeps h' hstore hgone, hkeeps,
      hgone, hforemost⟩
  · exact absurd (h.evictions_lt (hlen ▸ Nat.succ_pos _)) (Nat.not_lt_of_le hcount)

/-- What an eviction has done that took an item. -/
theorem Sound.of_evict {e : Eviction} {events : List Event} (h : c.Sound lists loose held)
    (hevict : c.evict = .ok ⟨some e, c', events⟩) :
    events = [.evicted e] ∧ e.bin < c.catalog.directory.binCount ∧ e.id ∈ lists e.bin ∧
      e = c.catalog.directory.evictionOf e.bin e.id ∧
      c'.Sound (moveToSpare lists c.catalog.directory.binCount e.bin e.id) loose held ∧
      c.Keeps lists (· ≠ e.id) c'
        (moveToSpare lists c.catalog.directory.binCount e.bin e.id) ∧
      c'.len + 1 = c.len ∧ c.catalog.directory.Foremost lists ⟨e.bin, e.id, e.time⟩ := by
  rcases h.evict_spec with ⟨hnone, _⟩ | ⟨e', c'', hsome, hbin, hmem, hnamed, hsound, hkeeps, hgone,
    hforemost⟩
  · rw [hnone] at hevict
    cases hevict
  · rw [hsome] at hevict
    cases hevict
    exact ⟨rfl, hbin, hmem, hnamed, hsound, hkeeps, hgone.len_add, hforemost⟩

/-! ## Evictions in a row -/

/-- Evicting from `c`, in states that satisfy `p` only, reports `es` and ends in `c'`. -/
inductive EvictsWhile (p : Cache → Prop) : Cache → List Eviction → Cache → Prop where
  | stop (c : Cache) : EvictsWhile p c [] c
  | evict {c c₁ c' : Cache} {e : Eviction} {es : List Eviction} :
      p c → c.evict = .ok ⟨some e, c₁, [.evicted e]⟩ → EvictsWhile p c₁ es c' →
      EvictsWhile p c (e :: es) c'

/-- Each of `es` is about an item of its own bin. -/
def Names (c : Cache) (lists : Nat → List Nat) (es : List Eviction) : Prop :=
  ∀ e ∈ es, e.bin < c.catalog.directory.binCount ∧ e.id ∈ lists e.bin ∧
    e = c.catalog.directory.evictionOf e.bin e.id

/-- Items that a later cache names are items of an earlier one, and are among those it keeps. -/
theorem Keeps.names {lists' : Nat → List Nat} {keep : Nat → Prop} [DecidablePred keep]
    {es : List Eviction} (h : c.Keeps lists keep c' lists') (hes : c'.Names lists' es) :
    c.Names lists es ∧ ∀ e ∈ es, keep e.id := by
  have hboth : ∀ e ∈ es, (e.bin < c.catalog.directory.binCount ∧ e.id ∈ lists e.bin ∧
      e = c.catalog.directory.evictionOf e.bin e.id) ∧ keep e.id := by
    intro e he
    obtain ⟨hbin, hmem, hnamed⟩ := hes e he
    rw [h.items.binCount_eq] at hbin
    rw [h.bins e.bin hbin, List.mem_filter, decide_eq_true_eq] at hmem
    rw [Directory.evictionOf, h.items.item_eq] at hnamed
    exact ⟨⟨hbin, hmem.1, hnamed⟩, hmem.2⟩
  exact ⟨fun e he => (hboth e he).1, fun e he => (hboth e he).2⟩

/-- What a later cache sheds, an earlier one sheds out of what it keeps. -/
theorem Keeps.sheds {lists' : Nat → List Nat} {keep : Nat → Prop} [DecidablePred keep]
    {es : List Eviction} (h : c.Keeps lists keep c' lists')
    (hes : c'.catalog.directory.Sheds lists' es) :
    c.catalog.directory.Sheds (fun b => (lists b).filter keep) es := by
  refine hes.congr ⟨h.items.binCount_eq.symm, h.items.capacity_eq.symm, h.items.item_eq.symm⟩ ?_
  exact fun b hb => (h.bins b (h.items.binCount_eq ▸ hb)).symm

/-- What evictions leave: every item that is not named, where it was, and one item less for each. -/
theorem EvictsWhile.apportioned_spec {p : Cache → Prop} {es : List Eviction}
    (h : EvictsWhile p c es c') (hc : c.Apportioned lists loose held) :
    ∃ lists', c'.Apportioned lists' loose held ∧
      c.Keeps lists (fun id => id ∉ es.map (·.id)) c' lists' ∧
      c'.catalog.free.storeLength = c.catalog.free.storeLength ∧ c.Names lists es ∧
      c.catalog.directory.Sheds lists es ∧ c.Evicted es.length c' := by
  induction h generalizing lists with
  | stop c =>
      exact ⟨lists, hc, .refl c lists (by simp), rfl, by simp [Names], trivial, rfl, rfl⟩
  | @evict c c₁ c' e es _ hevict _ ih =>
      rcases hc.evict_spec with ⟨hnone, _⟩ | ⟨e', c'', hsome, hbin, hmem, hnamed, hleft, hkeeps,
        hstore, hgone, hforemost⟩ | ⟨_, i, hstop, _⟩
      · rw [hnone] at hevict
        cases hevict
      · rw [hsome] at hevict
        cases hevict
        -- What the later evictions name was there before the first one, too.
        obtain ⟨lists', hleft', hkeeps', hstore', hnames, hsheds, hgone'⟩ := ih hleft
        refine ⟨lists', hleft', (hkeeps.trans hkeeps').congr (fun _ => by simp),
          hstore'.trans hstore, ?_, ?_, ?_⟩
        · exact List.forall_mem_cons.2 ⟨⟨hbin, hmem, hnamed⟩, (hkeeps.names hnames).1⟩
        · exact ⟨hforemost, hnamed, hkeeps.sheds hsheds⟩
        · rw [List.length_cons, Nat.add_comm]
          exact hgone.trans hgone'
      · rw [hstop] at hevict
        cases hevict

theorem EvictsWhile.spec {p : Cache → Prop} {es : List Eviction} (h : EvictsWhile p c es c')
    (hc : c.Sound lists loose held) :
    ∃ lists', c'.Sound lists' loose held ∧
      c.Keeps lists (fun id => id ∉ es.map (·.id)) c' lists' ∧ c.Names lists es ∧
      c.catalog.directory.Sheds lists es ∧ c'.len + es.length = c.len := by
  obtain ⟨lists', h', hkeeps, hstore, hnames, hsheds, hgone⟩ := h.apportioned_spec hc.apportioned
  exact ⟨lists', hc.of_keeps hkeeps h' hstore hgone, hkeeps, hnames, hsheds, hgone.len_add⟩

theorem EvictsWhile.mono {p q : Cache → Prop} {es : List Eviction} (h : EvictsWhile p c es c')
    (hpq : ∀ c, p c → q c) : EvictsWhile q c es c' := by
  induction h with
  | stop c => exact .stop c
  | evict hp hevict _ ih => exact .evict (hpq _ hp) hevict ih

/-- Evictions that go on only while `p` holds are no more than it takes until it does not. -/
theorem EvictsWhile.length_le {p q : Cache → Prop} {es es' : List Eviction} {c'' : Cache}
    (h : EvictsWhile p c es c') (h' : EvictsWhile q c es' c'') (hend : ¬ p c'') :
    es.length ≤ es'.length := by
  induction h generalizing es' with
  | stop c => exact Nat.zero_le _
  | @evict c c₁ c' e es hp hevict _ ih =>
      cases h' with
      | stop => exact absurd hp hend
      | evict _ hevict' hrest =>
          -- There is only one item that goes first.
          rw [hevict] at hevict'
          cases hevict'
          exact Nat.succ_le_succ (ih hrest)

/-! ## Space -/

section Search

variable {count length : Nat}

theorem allocateWithin_of_some {offset : Nat} {f : FreeList}
    (htake : c.catalog.free.allocate length = some (offset, f)) :
    allocateWithin length count c = .ok ⟨some offset, c.withFree f, []⟩ := by
  rw [allocateWithin.eq_def, htake]

theorem allocateWithin_of_no_items (htake : c.catalog.free.allocate length = none)
    (hevict : c.evict = .ok ⟨none, c', []⟩) :
    allocateWithin length count c = .ok ⟨none, c', []⟩ := by
  rw [allocateWithin.eq_def, htake]
  simp only [hevict, ok_bind]
  rfl

theorem allocateWithin_succ {e : Eviction} {es : List Eviction} {c₁ : Cache} {answer : Option Nat}
    (htake : c.catalog.free.allocate length = none)
    (hevict : c.evict = .ok ⟨some e, c₁, [.evicted e]⟩)
    (hrest : allocateWithin length count c₁ = .ok ⟨answer, c', es.map .evicted⟩) :
    allocateWithin length (count + 1) c = .ok ⟨answer, c', (e :: es).map .evicted⟩ := by
  rw [allocateWithin, htake]
  simp only [hevict, ok_bind, hrest]
  rfl

theorem allocateWithin_of_stop {i : Interruption} (htake : c.catalog.free.allocate length = none)
    (hevict : c.evict = .error i) : allocateWithin length count c = .error i := by
  rw [allocateWithin.eq_def, htake]
  simp only [hevict]
  rfl

theorem allocateWithin_succ_of_stop {e : Eviction} {c₁ : Cache} {i : Interruption}
    (htake : c.catalog.free.allocate length = none)
    (hevict : c.evict = .ok ⟨some e, c₁, [.evicted e]⟩)
    (hrest : allocateWithin length count c₁ = .error i) :
    allocateWithin length (count + 1) c = .error i := by
  rw [allocateWithin, htake]
  simp only [hevict, ok_bind, hrest]
  rfl

/-- How a search for `length` bytes ends that has evicted `es` and come to `c'`. -/
inductive SearchEnds (length : Nat) (es : List Eviction) (c' : Cache) :
    Except Interruption (Outcome (Option Nat)) → Prop where
  | found {offset : Nat} {f : FreeList} :
      c'.catalog.free.allocate length = some (offset, f) →
      SearchEnds length es c' (.ok ⟨some offset, c'.withFree f, es.map .evicted⟩)
  /-- No item is left. -/
  | exhausted :
      c'.catalog.free.allocate length = none → c'.len = 0 →
      SearchEnds length es c' (.ok ⟨none, c', es.map .evicted⟩)
  /-- The next eviction cannot be counted. -/
  | uncounted {i : Interruption} :
      c'.catalog.free.allocate length = none → Word.limit ≤ c'.counters.evictions + 1 →
      i.fault = .overflow → i.len + 1 = c'.len → SearchEnds length es c' (.error i)

theorem SearchEnds.succ {e : Eviction} {es : List Eviction} {c₁ : Cache}
    (htake : c.catalog.free.allocate length = none)
    (hevict : c.evict = .ok ⟨some e, c₁, [.evicted e]⟩)
    (h : SearchEnds length es c' (allocateWithin length count c₁)) :
    SearchEnds length (e :: es) c' (allocateWithin length (count + 1) c) := by
  generalize hrest : allocateWithin length count c₁ = rest at h
  cases h with
  | found hsome =>
      rw [allocateWithin_succ htake hevict hrest]
      exact .found hsome
  | exhausted hnone hzero =>
      rw [allocateWithin_succ htake hevict hrest]
      exact .exhausted hnone hzero
  | uncounted hnone hcount hfault hlen =>
      rw [allocateWithin_succ_of_stop htake hevict hrest]
      exact .uncounted hnone hcount hfault hlen

/-- A cache that has lost all its items has room for whatever its store can hold. -/
theorem Apportioned.allocate_ne_none (h : c.Apportioned lists loose []) (hzero : c.len = 0)
    (hle : length ≤ c.catalog.free.storeLength) : c.catalog.free.allocate length ≠ none := by
  have hempty : rows lists c.catalog.directory.binCount = [] := by
    rw [← List.length_eq_zero_iff, ← h.len_eq]
    exact hzero
  obtain ⟨answer, hsome⟩ := h.catalog.exists_allocate hempty hle
  rw [hsome]
  exact Option.some_ne_none _

/-- As many evictions as there are items are enough to end the search for `length` bytes. -/
theorem Apportioned.allocateWithin_spec (h : c.Apportioned lists loose held) (length : Nat)
    (hcount : c.len ≤ count) :
    ∃ es c', EvictsWhile (fun c => c.catalog.free.allocate length = none) c es c' ∧
      SearchEnds length es c' (allocateWithin length count c) := by
  -- Every eviction uses up one of the `count` turns and one of the items.
  induction count generalizing c lists with
  | zero =>
      refine ⟨[], c, .stop c, ?_⟩
      cases htake : c.catalog.free.allocate length with
      | some answer =>
          rw [allocateWithin_of_some htake]
          exact .found htake
      | none =>
          rcases h.evict_spec with ⟨hevict, _⟩ | ⟨e, c₁, _, _, _, _, _, _, _, hgone, _⟩ |
            ⟨_, i, _, _, hlen⟩
          · rw [allocateWithin_of_no_items htake hevict]
            exact .exhausted htake (Nat.le_zero.1 hcount)
          · have hlen := hgone.len_add
            omega
          · omega
  | succ count ih =>
      cases htake : c.catalog.free.allocate length with
      | some answer =>
          refine ⟨[], c, .stop c, ?_⟩
          rw [allocateWithin_of_some htake]
          exact .found htake
      | none =>
          rcases h.evict_spec with ⟨hevict, hempty⟩ |
            ⟨e, c₁, hevict, _, _, _, hleft, _, _, hgone, _⟩ | ⟨hfull, i, hevict, hfault, hlen⟩
          · refine ⟨[], c, .stop c, ?_⟩
            rw [allocateWithin_of_no_items htake hevict]
            exact .exhausted htake (by rw [h.len_eq, hempty, List.length_nil])
          · -- The search goes on with one item less.
            have hlen := hgone.len_add
            obtain ⟨es, c', hes, hend⟩ := ih hleft (by omega)
            exact ⟨e :: es, c', .evict htake hevict hes, hend.succ htake hevict⟩
          · refine ⟨[], c, .stop c, ?_⟩
            rw [allocateWithin_of_stop htake hevict]
            exact .uncounted htake hfull hfault hlen

/-- Room for `length` bytes is found, after as many evictions as it takes. -/
theorem Sound.allocateWithin_spec (h : c.Sound lists loose [])
    (hcount : c.len ≤ count) (hle : length ≤ c.layout.storeLength) :
    ∃ es c' offset f, EvictsWhile (fun c => c.catalog.free.allocate length = none) c es c' ∧
      c'.catalog.free.allocate length = some (offset, f) ∧
      allocateWithin length count c =
        .ok ⟨some offset, c'.withFree f, es.map .evicted⟩ := by
  obtain ⟨es, c', hes, hend⟩ := h.apportioned.allocateWithin_spec length hcount
  obtain ⟨lists', h', hkeeps, _, _, _⟩ := hes.spec h
  generalize hsearch : allocateWithin length count c = outcome at hend
  cases hend with
  | found hsome => exact ⟨es, c', _, _, hes, hsome, rfl⟩
  | exhausted hnone hzero =>
      rw [← hkeeps.layout_eq, ← h'.free_eq] at hle
      exact absurd hnone (h'.apportioned.allocate_ne_none hzero hle)
  | uncounted _ hfull _ hlen =>
      exact absurd (h'.evictions_lt (hlen ▸ Nat.succ_pos _)) (Nat.not_lt_of_le hfull)

end Search

/-! ## Entries -/

/-- Every entry that no item uses is spare. -/
theorem Sound.len_add_spare (h : c.Sound lists [] held) :
    c.len + (lists c.catalog.directory.binCount).length = c.catalog.directory.capacity := by
  have hspells := h.laid.spells
  have hrows : (rows lists (c.catalog.directory.binCount + 1)).length =
      c.len + (lists c.catalog.directory.binCount).length := by
    rw [rows_succ, List.length_append, h.len_eq]
  -- Each of the entries is on some chain.
  have hall : List.range c.catalog.directory.capacity ⊆
      rows lists (c.catalog.directory.binCount + 1) := by
    intro id hid
    have honce := h.laid.once id
    rw [List.count_nil, if_pos (List.mem_range.1 hid)] at honce
    exact List.count_pos_iff.1 (by omega)
  have hge := (List.nodup_range.subperm hall).length_le
  have hle := hspells.length_rows_le (Nat.le_refl _)
  rw [List.length_range] at hge
  omega

/-- No entry is spare exactly if all of them are used. -/
theorem Sound.spare_eq_nil_iff (h : c.Sound lists [] held) :
    lists c.catalog.directory.binCount = [] ↔ c.len = c.catalog.directory.capacity := by
  have hcount := h.len_add_spare
  rw [← List.length_eq_zero_iff]
  omega

theorem Sound.spare_eq_none_iff (h : c.Sound lists [] held) :
    c.catalog.directory.spare = none ↔ c.len = c.catalog.directory.capacity := by
  have hleads := h.laid.spells.leads _ (Nat.le_refl c.catalog.directory.binCount)
  rw [← h.spare_eq_nil_iff, ← List.head?_eq_none_iff, hleads.head?_eq, Directory.headOf_spare]

theorem Sound.claim_spec (h : c.Sound lists loose held) :
    (c.claim = .ok (none, c) ∧ lists c.catalog.directory.binCount = []) ∨
      ∃ id rest d', c.claim = .ok (some id, c.withDirectory d') ∧
        lists c.catalog.directory.binCount = id :: rest ∧
        (c.withDirectory d').Sound (Function.update lists c.catalog.directory.binCount rest)
          (id :: loose) held ∧
        c.catalog.directory.SameItems d' := by
  cases hlist : lists c.catalog.directory.binCount with
  | nil =>
      refine Or.inl ⟨?_, rfl⟩
      simp only [claim, h.laid.claim_nil hlist, during_ok, ok_bind]
      rfl
  | cons id rest =>
      obtain ⟨d', hclaim, hlaid, hsame⟩ := h.laid.claim_cons hlist
      refine Or.inr ⟨id, rest, d', ?_, rfl, ?_, hsame⟩
      · simp only [claim, hclaim, during_ok, ok_bind]
        rfl
      · refine h.withCatalog hlaid hsame.binCount_eq hsame.capacity_eq rfl ?_ h.time_lt h.counted_le
        rw [rows_update_of_le (Nat.le_refl _)]
        exact h.len_eq

/-- There is no entry to claim exactly if all of them are used. -/
theorem Sound.claim_eq_none_iff (h : c.Sound lists [] held) :
    c.claim = .ok (none, c) ↔ c.len = c.catalog.directory.capacity := by
  rw [← h.spare_eq_nil_iff]
  rcases h.claim_spec with ⟨hclaim, hnil⟩ | ⟨id, rest, d', hclaim, hlist, _⟩
  · exact iff_of_true hclaim hnil
  · rw [hclaim, hlist]
    simp

/-- A spare entry is found, after one eviction at most. -/
theorem Sound.acquire_spec (h : c.Sound lists [] held) :
    ∃ es c' id d', EvictsWhile (fun c => c.claim = .ok (none, c)) c es c' ∧ es.length ≤ 1 ∧
      c'.claim = .ok (some id, c'.withDirectory d') ∧
      c.acquire = .ok ⟨some id, c'.withDirectory d', es.map .evicted⟩ := by
  rcases h.claim_spec with ⟨hclaim, hnil⟩ | ⟨id, _, d', hclaim, _⟩
  · rcases h.evict_spec with ⟨_, hempty⟩ | ⟨e, c', hevict, _, _, _, hsound, hkeeps, _⟩
    · -- A cache without items has spare entries.
      have hpos := h.laid.entries_pos
      have hlen := h.len_eq
      rw [hempty, List.length_nil] at hlen
      rw [h.spare_eq_nil_iff] at hnil
      omega
    · -- The entry that was evicted is spare now.
      rcases hsound.claim_spec with ⟨_, hnil'⟩ | ⟨id, _, d', hclaim', _⟩
      · rw [hkeeps.items.binCount_eq, moveToSpare_self] at hnil'
        cases hnil'
      · refine ⟨[e], c', id, d', .evict hclaim hevict (.stop c'), Nat.le_refl 1, hclaim', ?_⟩
        simp only [acquire, hclaim, hevict, hclaim', ok_bind]
        rfl
  · refine ⟨[], c, id, d', .stop c, Nat.zero_le 1, hclaim, ?_⟩
    simp only [acquire, hclaim, ok_bind]
    rfl

/-- An entry that is claimed is loose from then on. -/
theorem Sound.of_claim (h : c.Sound lists [] held) (hclaim : c.claim = .ok (some id, c')) :
    ∃ lists', c'.Sound lists' [id] held ∧ c.Keeps lists (fun _ => True) c' lists' ∧
      c'.len = c.len := by
  rcases h.claim_spec with ⟨hnone, _⟩ | ⟨id', rest, d', hsome, _, hsound, hsame⟩
  · rw [hnone] at hclaim
    cases hclaim
  · rw [hsome] at hclaim
    cases hclaim
    refine ⟨_, hsound, ⟨rfl, rfl, rfl, rfl, hsame, fun b hb => ?_⟩, rfl⟩
    rw [Function.update_of_ne (Nat.ne_of_lt hb), eq_comm, List.filter_eq_self]
    exact fun _ _ => rfl

end Cache
end BlockCache

import BlockCache.Proofs.Cache.Recency

/-!
# Queue — evictions in the order of the puts

A victim is chosen among the heads of the bins only, by the times of their last uses. Where no item
has been found since it was put, these times are in the order of the puts, and so is every bin; then
the head that is chosen was put first of all items, in whatever bins they are.

* `d.Queued turns lists` — the bins and the times are in the order of the last puts;
* `FirstOut turns there es` — of the keys that are there, each of the evictions `es` takes the one
  that was put first.

Until the first hit a cache gives up its items as a queue does (`evictions_follow_puts`).
-/

namespace BlockCache

variable {turns : List Turn} {t : Turn} {k k' : UInt32} {lists : Nat → List Nat}
  {es : List Eviction}

/-! ## First in, first out -/

theorem PutBefore.trans {k'' : UInt32} (h : PutBefore turns k k') (h' : PutBefore turns k' k'') :
    PutBefore turns k k'' := by
  rcases h with ⟨i, j, hi, hj, hlt⟩
  rcases h' with ⟨j', l, hj', hl, hlt'⟩
  rw [hj] at hj'
  cases hj'
  exact ⟨i, l, hi, hl, Nat.lt_trans hlt hlt'⟩

theorem PutBefore.ne (h : PutBefore turns k k') : k ≠ k' := by
  rintro rfl
  rcases h with ⟨i, j, hi, hj, hlt⟩
  rw [hi] at hj
  cases hj
  exact Nat.lt_irrefl i hlt

/-- Of the keys that are there, each eviction takes the one that was put first. -/
def FirstOut (turns : List Turn) : (UInt32 → Prop) → List Eviction → Prop
  | _, [] => True
  | there, e :: es => there e.key ∧ (∀ k, there k → k ≠ e.key → PutBefore turns e.key k) ∧
      FirstOut turns (fun k => there k ∧ k ≠ e.key) es

theorem FirstOut.congr {there there' : UInt32 → Prop} (h : FirstOut turns there es)
    (hthere : ∀ k, there' k ↔ there k) : FirstOut turns there' es := by
  have hsame : there' = there := funext fun k => propext (hthere k)
  rw [hsame]
  exact h

/-- The evictions among some events. -/
def evictedIn (events : List Event) : List Eviction :=
  events.filterMap fun
    | .evicted e => some e
    | _ => none

theorem evictedIn_map (es : List Eviction) : evictedIn (es.map .evicted) = es := by
  simp [evictedIn, List.filterMap_map]

theorem evictedIn_eq_nil {events : List Event} (h : ∀ e, .evicted e ∉ events) :
    evictedIn events = [] := by
  rw [evictedIn, List.filterMap_eq_nil_iff]
  intro event hevent
  cases event with
  | evicted e => exact absurd hevent (h e)
  | _ => rfl

/-- The request was a lookup that found an item. -/
def Turn.hits (t : Turn) : Bool :=
  match t.answer with
  | .found (some _) => true
  | _ => false

def Hitless (turns : List Turn) : Prop :=
  ∀ t ∈ turns, ¬ t.hits

theorem Turn.usesKey_of_not_hits (h : ¬ t.hits) : t.usesKey k = t.storesKey k := by
  obtain ⟨request, answer, events⟩ := t
  cases answer with
  | found bytes =>
      cases bytes with
      | none => cases request <;> rfl
      | some _ => exact absurd rfl h
  | stored result => cases result <;> cases request <;> rfl
  | _ => cases request <;> rfl

theorem Hitless.lastUse_eq (h : Hitless turns) (k : UInt32) : lastUse turns k = lastPut turns k :=
  lastTurn_congr fun t ht => Turn.usesKey_of_not_hits (h t ht)

namespace Directory

variable {d : Directory}

/-- The item `x` has a smaller time than `y`, and its key was put earlier. -/
def Earlier (turns : List Turn) (d : Directory) (x y : Nat) : Prop :=
  (d.item x).time < (d.item y).time ∧ PutBefore turns (d.item x).key (d.item y).key

/-- The bins are in the order of the last puts, and so are the times of all items. -/
structure Queued (turns : List Turn) (d : Directory) (lists : Nat → List Nat) : Prop where
  bins : ∀ b < d.binCount,
    (lists b).Pairwise fun x y => PutBefore turns (d.item x).key (d.item y).key
  times : ∀ x ∈ rows lists d.binCount, ∀ y ∈ rows lists d.binCount, x ≠ y →
    d.Earlier turns x y ∨ d.Earlier turns y x

namespace Queued

theorem filter (h : d.Queued turns lists) (keep : Nat → Prop) [DecidablePred keep] :
    d.Queued turns fun b => (lists b).filter keep where
  bins := fun b hb => (h.bins b hb).filter _
  times := fun x hx y hy =>
    h.times x (mem_rows_filter.1 hx).1 y (mem_rows_filter.1 hy).1

theorem key_ne (h : d.Queued turns lists) {x y : Nat} (hx : x ∈ rows lists d.binCount)
    (hy : y ∈ rows lists d.binCount) (hne : x ≠ y) : (d.item x).key ≠ (d.item y).key := by
  rcases h.times x hx y hy hne with hearlier | hearlier
  · exact hearlier.2.ne
  · exact hearlier.2.ne.symm

/-- The foremost item was put before all others. -/
theorem first (h : d.Queued turns lists) {v : Candidate} (hv : d.Foremost lists v) {x : Nat}
    (hx : x ∈ rows lists d.binCount) (hne : x ≠ v.id) :
    PutBefore turns (d.item v.id).key (d.item x).key := by
  obtain ⟨tail, hlist⟩ := hv.head
  have hvrow : v.id ∈ rows lists d.binCount := mem_rows.2 ⟨v.bin, hv.bin_lt, by simp [hlist]⟩
  obtain ⟨b, hb, hmem⟩ := mem_rows.1 hx
  -- Between the foremost item and `x` there is the head of the bin of `x`.
  obtain ⟨y, back, hbin⟩ := List.exists_cons_of_ne_nil (List.ne_nil_of_mem hmem)
  have hyrow : y ∈ rows lists d.binCount := mem_rows.2 ⟨b, hb, by simp [hbin]⟩
  have hhead : y ≠ v.id → PutBefore turns (d.item v.id).key (d.item y).key := by
    intro hyv
    have hle := hv.least b hb y back hbin
    rw [Candidate.Le, hv.time_eq] at hle
    dsimp only at hle
    rcases h.times v.id hvrow y hyrow (Ne.symm hyv) with hearlier | hearlier
    · exact hearlier.2
    · have hlt := hearlier.1
      omega
  have hsorted := h.bins b hb
  rw [hbin, List.pairwise_cons] at hsorted
  rw [hbin, List.mem_cons] at hmem
  rcases hmem with rfl | hback
  · exact hhead hne
  · by_cases hyv : y = v.id
    · rw [← hyv]
      exact hsorted.1 x hback
    · exact (hhead hyv).trans (hsorted.1 x hback)

/-- What is shed goes in the order in which it was put. -/
theorem firstOut (h : d.Queued turns lists) (hes : d.Sheds lists es) :
    FirstOut turns (fun k => ∃ x ∈ rows lists d.binCount, (d.item x).key = k) es := by
  induction es generalizing lists with
  | nil => trivial
  | cons e es ih =>
      rcases hes with ⟨hforemost, hnamed, hrest⟩
      have hkey : e.key = (d.item e.id).key := by rw [hnamed]; rfl
      obtain ⟨tail, hlist⟩ := hforemost.head
      have hrow : e.id ∈ rows lists d.binCount :=
        mem_rows.2 ⟨e.bin, hforemost.bin_lt, by simp [hlist]⟩
      refine ⟨⟨e.id, hrow, hkey.symm⟩, ?_, (ih (h.filter (· ≠ e.id)) hrest).congr fun k => ?_⟩
      · rintro k ⟨x, hx, rfl⟩ hne
        rw [hkey] at hne ⊢
        exact h.first hforemost hx fun hxe => hne (by rw [hxe])
      · -- Only the item that is evicted has its key.
        rw [hkey]
        constructor
        · rintro ⟨⟨x, hx, rfl⟩, hne⟩
          exact ⟨x, mem_rows_filter.2 ⟨hx, fun hxe => hne (by rw [hxe])⟩, rfl⟩
        · rintro ⟨x, hx, rfl⟩
          obtain ⟨hx, hne⟩ := mem_rows_filter.1 hx
          exact ⟨⟨x, hx, rfl⟩, h.key_ne hx hrow hne⟩

end Queued
end Directory

namespace Cache

variable {c c' : Cache} {lists' : Nat → List Nat}

/-! ## Caches without hits -/

/-- Where the last use of each key is its last put, times and bins are in the order of the puts. -/
theorem Trace.queued (h : Trace turns c lists)
    (huses : ∀ k, c.contains k = .ok true → lastUse turns k = lastPut turns k) :
    c.catalog.directory.Queued turns lists := by
  have hputs : ∀ x ∈ rows lists c.catalog.directory.binCount,
      lastUse turns (c.catalog.directory.item x).key =
        lastPut turns (c.catalog.directory.item x).key := fun x hx =>
    huses _ (h.sound.contains_iff.2 ⟨x, hx, rfl⟩)
  constructor
  · intro b hb
    rw [h.sound.bins_eq] at hb
    exact List.pairwise_map.1 (h.inPutOrder hb).ascending
  · intro x hx y hy hne
    have hordered := h.recent.ordered x hx y hy hne
    simp only [Older, UsedBefore, hputs x hx, hputs y hy] at hordered
    exact hordered

theorem Sound.evict_firstOut (h : c.Sound lists [] [])
    (hqueued : c.catalog.directory.Queued turns lists) :
    (c.evict = .ok ⟨none, c, []⟩ ∧ ∀ k, c.contains k = .ok false) ∨
      ∃ e c', c.evict = .ok ⟨some e, c', [.evicted e]⟩ ∧
        FirstOut turns (fun k => c.contains k = .ok true) [e] := by
  rcases h.evict_spec with ⟨hevict, hempty⟩ | ⟨e, c', hevict, _, _, hnamed, _, _, _, hforemost⟩
  · refine Or.inl ⟨hevict, fun k => ?_⟩
    have hnot : c.contains k ≠ .ok true := by
      rw [Ne, h.contains_iff, hempty]
      simp
    obtain ⟨present, hcontains, _⟩ := h.contains_spec k
    cases present with
    | false => exact hcontains
    | true => exact absurd hcontains hnot
  · have hsheds : c.catalog.directory.Sheds lists [e] := ⟨hforemost, hnamed, trivial⟩
    exact Or.inr ⟨e, c', hevict, (hqueued.firstOut hsheds).congr fun k => h.contains_iff⟩

/-- The evictions of one request are in the order of the puts before it. The key that is put has
lost its old item by then. -/
theorem Step.firstOut (h : Step c lists t c' lists') (hc : c.Sound lists [] [])
    (hqueued : c.catalog.directory.Queued turns lists) :
    FirstOut turns (fun k => c.contains k = .ok true ∧ ∀ d, t.request ≠ .put k d)
      (evictedIn t.events) := by
  cases h with
  | @stored key data es id extent _ _ hputs =>
      have hout := (hqueued.filter _).firstOut hputs.sheds
      rw [evictedIn_map]
      refine hout.congr fun k => ?_
      rw [hc.contains_iff]
      constructor
      · rintro ⟨⟨x, hx, rfl⟩, hother⟩
        refine ⟨x, mem_rows_filter.2 ⟨hx, fun heq => hother data ?_⟩, rfl⟩
        rw [heq]
      · rintro ⟨x, hx, rfl⟩
        obtain ⟨hx, hne⟩ := mem_rows_filter.1 hx
        refine ⟨⟨x, hx, rfl⟩, fun d heq => hne ?_⟩
        cases heq
        rfl
  | rejected hevents =>
      rw [evictedIn_eq_nil hevents]
      trivial
  | _ => trivial

/-- Where no item has been found since it was put last, the victim is the item that was put first.
In a run without hits the last use of every key is its last put, and each eviction takes, of the
items that are there at that moment, the one that was put first and so was used first. -/
theorem evictions_follow_puts {c₀ : Cache} {requests : List Request} (hfresh : c₀.Fresh)
    (hrun : c₀.run requests = .ok (turns, c)) :
    ((∀ k, c.contains k = .ok true → lastUse turns k = lastPut turns k) →
      (c.evict = .ok ⟨none, c, []⟩ ∧ ∀ k, c.contains k = .ok false) ∨
        ∃ e c', c.evict = .ok ⟨some e, c', [.evicted e]⟩ ∧
          FirstOut turns (fun k => c.contains k = .ok true) [e]) ∧
    (Hitless turns → ∀ before t after, turns = before ++ t :: after →
      ∃ c₁ c₂, c₀.run (requests.take before.length) = .ok (before, c₁) ∧
        c₁.perform t.request = .ok ⟨t.answer, c₂, t.events⟩ ∧
        FirstOut before (fun k => c₁.contains k = .ok true ∧ ∀ d, t.request ≠ .put k d)
          (evictedIn t.events) ∧
        ∀ k, lastUse before k = lastPut before k) := by
  refine ⟨fun huses => ?_, ?_⟩
  · obtain ⟨lists, htrace⟩ := Trace.of_run hfresh hrun
    exact htrace.sound.evict_firstOut (htrace.queued huses)
  · rintro hhitless before t after rfl
    obtain ⟨c₁, c₂, hbefore, hturn, _⟩ := run_split hrun
    obtain ⟨lists, htrace⟩ := Trace.of_run hfresh hbefore
    have huses : ∀ k, lastUse before k = lastPut before k :=
      Hitless.lastUse_eq fun u hu => hhitless u (List.mem_append_left _ hu)
    obtain ⟨_, hstep⟩ := htrace.sound.perform_step hturn
    exact ⟨c₁, c₂, hbefore, hturn,
      hstep.firstOut htrace.sound (htrace.queued fun k _ => huses k), huses⟩

/-- The key 1 is put again, so the key 2 has to go first. -/
theorem evictions_follow_puts_replaced :
    ∃ before t c, smallest.run [.put 1 ⟨#[1]⟩, .put 2 ⟨#[1]⟩, .put 1 ⟨#[2]⟩, .put 3 ⟨#[1]⟩] =
        .ok (before ++ [t], c) ∧
      evictedIn t.events = [⟨1, 0, 2, 304, 16, 1⟩] ∧ PutBefore before 2 1 := by
  obtain ⟨before, c₁, t, c, hbefore, hrun, hhitless, hlength, hrequest, hevents, hcontains⟩ :
      ∃ before c₁ t c,
        smallest.run [.put 1 ⟨#[1]⟩, .put 2 ⟨#[1]⟩, .put 1 ⟨#[2]⟩] = .ok (before, c₁) ∧
        smallest.run [.put 1 ⟨#[1]⟩, .put 2 ⟨#[1]⟩, .put 1 ⟨#[2]⟩, .put 3 ⟨#[1]⟩] =
          .ok (before ++ [t], c) ∧ (before ++ [t]).any Turn.hits = false ∧
        before.length = 3 ∧
        t.request = .put 3 ⟨#[1]⟩ ∧ evictedIn t.events = [⟨1, 0, 2, 304, 16, 1⟩] ∧
        c₁.contains 1 = .ok true :=
    ⟨_, _, _, _, rfl, rfl, rfl, rfl, rfl, rfl, rfl⟩
  obtain ⟨c₁', _, hbefore', _, hfirst, _⟩ :=
    (evictions_follow_puts fresh_smallest hrun).2 (List.any_eq_false.1 hhitless) before t [] rfl
  rw [hlength] at hbefore'
  cases hbefore.symm.trans hbefore'
  rw [hevents] at hfirst
  refine ⟨before, t, c, hrun, hevents, hfirst.2.1 1 ⟨hcontains, ?_⟩ (by decide)⟩
  rw [hrequest]
  simp

end Cache
end BlockCache

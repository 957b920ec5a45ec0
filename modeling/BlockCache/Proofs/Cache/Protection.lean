import BlockCache.Proofs.Cache.Queue
import BlockCache.Proofs.Cache.Room

/-!
# Protection — the item that was used last goes last

A victim is chosen among the heads of the bins, so the choice only approximates the order of the
last uses. What it does guarantee is about the item `m` that was used last of all:

* `d.Youngest lists m` — every other item has a smaller time than `m`.

The head of an occupied bin is older than `m`, unless it is `m`. So `m` is chosen only when it heads
its bin and no other bin is occupied (`Directory.Youngest.mem_tail`). An item that outlives `m` then
stands behind it (`Reachable.youngest_goes_last`). With one bin this says nothing more than that the
bin is a queue: the one in front goes first, though it was used last.
-/

namespace BlockCache

variable {lists lists' : Nat → List Nat} {m : Nat}

namespace Directory

variable {d d' : Directory} {keep : Nat → Prop} [DecidablePred keep]

/-- Every other item has a smaller time than `m`, which is in one bin only. -/
structure Youngest (d : Directory) (lists : Nat → List Nat) (m : Nat) : Prop where
  later : ∀ x ∈ rows lists d.binCount, x ≠ m → (d.item x).time < (d.item m).time
  apart : ∀ b < d.binCount, ∀ b' < d.binCount, m ∈ lists b → m ∈ lists b' → b = b'

/-- The youngest item stays the youngest when others are lost. -/
theorem Youngest.filter (h : d.Youngest lists m) (hsame : d.SameItems d')
    (hlists : ∀ b < d.binCount, lists' b = (lists b).filter keep) : d'.Youngest lists' m where
  later := by
    rw [hsame.binCount_eq, hsame.item_eq, rows_congr hlists]
    intro x hx
    exact h.later x (mem_rows_filter.1 hx).1
  apart := by
    rw [hsame.binCount_eq]
    intro b hb b' hb' hmem hmem'
    rw [hlists b hb] at hmem
    rw [hlists b' hb'] at hmem'
    exact h.apart b hb b' hb' (List.mem_of_mem_filter hmem) (List.mem_of_mem_filter hmem')

/-- When the youngest item is foremost, all other items stand behind it. -/
theorem Youngest.mem_tail (h : d.Youngest lists m) {v : Candidate} (hv : d.Foremost lists v)
    (hm : v.id = m) {tail : List Nat} (hlist : lists v.bin = m :: tail) :
    ∀ x ∈ rows lists d.binCount, x ≠ m → x ∈ tail := by
  intro x hx hne
  obtain ⟨b, hb, hmem⟩ := mem_rows.1 hx
  obtain ⟨y, back, hbin⟩ := List.exists_cons_of_ne_nil (List.ne_nil_of_mem hmem)
  have hy : y = m := by
    by_contra hym
    -- An older head would have been chosen.
    have hyrow : y ∈ rows lists d.binCount := mem_rows.2 ⟨b, hb, by simp [hbin]⟩
    have hlater := h.later y hyrow hym
    have hle := hv.least b hb y back hbin
    rw [Candidate.Le, hv.time_eq, hm] at hle
    dsimp only at hle
    omega
  subst hy
  -- So the bin of `x` is the one of the youngest.
  have hsame : v.bin = b := h.apart v.bin hv.bin_lt b hb (by simp [hlist]) (by simp [hbin])
  subst hsame
  rw [hlist, List.mem_cons] at hmem
  exact hmem.resolve_left hne

/-- When the youngest item is shed, what stood in front of it has been shed before, and so has
everything in other bins. -/
theorem Youngest.shed (h : d.Youngest lists m) {before after : List Eviction} {e : Eviction}
    (hes : d.Sheds lists (before ++ e :: after)) (hm : e.id = m) :
    ∃ front back, lists e.bin = front ++ m :: back ∧
      ∀ x ∈ rows lists d.binCount, x ≠ m → x ∉ back → x ∈ before.map (·.id) := by
  have hforemost := hes.foremost
  obtain ⟨tail, hlist⟩ := hforemost.head
  dsimp only at hlist
  rw [hm] at hlist
  -- What is left of the bin begins with the youngest, so all in front of it has gone.
  obtain ⟨front, back, hsplit, _, _, hback⟩ := List.filter_eq_cons_iff.1 hlist
  refine ⟨front, back, hsplit, fun x hx hne hbehind => ?_⟩
  by_contra hleft
  have hrow : x ∈ rows (fun b => (lists b).filter (· ∉ before.map (·.id))) d.binCount :=
    mem_rows_filter.2 ⟨hx, hleft⟩
  have hmem := (h.filter (.refl d) fun _ _ => rfl).mem_tail hforemost hm hlist x hrow hne
  rw [← hback] at hmem
  exact hbehind (List.mem_of_mem_filter hmem)

end Directory

namespace Cache

variable {c c' : Cache} {key : UInt32} {loose : List Nat} {held : List Extent}

/-- The item with the greatest time is the youngest, as no two times are the same. -/
theorem Recent.youngest {turns : List Turn} (h : Recent turns c lists)
    (hc : c.Sound lists loose held) (hm : m ∈ rows lists c.catalog.directory.binCount)
    (hlast : ∀ x ∈ rows lists c.catalog.directory.binCount,
      (c.catalog.directory.item x).time ≤ (c.catalog.directory.item m).time) :
    c.catalog.directory.Youngest lists m where
  later := by
    intro x hx hne
    exact Nat.lt_of_le_of_ne (hlast x hx) (h.time_ne hx hm hne)
  apart := by
    intro b hb b' hb'
    exact hc.laid.spells.apart b (Nat.le_of_lt hb) b' (Nat.le_of_lt hb') m

/-- Some item is in the bin `b`. -/
def Occupied (c : Cache) (b : Nat) : Prop :=
  b < c.layout.binCount ∧ ∃ id, c.catalog.directory.head b = .ok (some id)

/-- An eviction spares the youngest item while two bins are occupied. -/
theorem Sound.evict_spares_youngest {e : Eviction} {events : List Event} {b b' : Nat}
    (h : c.Sound lists loose held) (hm : c.catalog.directory.Youngest lists m)
    (hb : c.Occupied b) (hb' : c.Occupied b') (hne : b ≠ b')
    (hevict : c.evict = .ok ⟨some e, c', events⟩) : e.id ≠ m := by
  obtain ⟨_, _, _, _, _, _, _, hforemost⟩ := h.of_evict hevict
  intro heq
  obtain ⟨tail, hlist⟩ := hforemost.head
  dsimp only at hlist
  rw [heq] at hlist
  -- Every head would be in the bin of the youngest.
  have hhome : ∀ b, c.Occupied b → e.bin = b := by
    rintro b ⟨hlt, x, hhead⟩
    rw [← h.bins_eq] at hlt
    have hx := h.mem_of_head hlt hhead
    have hmem : x ∈ lists e.bin := by
      rw [hlist, List.mem_cons]
      by_cases hxm : x = m
      · exact Or.inl hxm
      · exact Or.inr (hm.mem_tail hforemost heq hlist x (mem_rows.2 ⟨b, hlt, hx⟩) hxm)
    exact h.laid.spells.apart _ (Nat.le_of_lt hforemost.bin_lt) _ (Nat.le_of_lt hlt) x hmem hx
  exact hne ((hhome b hb).symm.trans (hhome b' hb'))

/-- An item of another key that is there after a put was not evicted. -/
theorem Puts.not_evicted {data : ByteArray} {es : List Eviction} {id x : Nat} {extent : Extent}
    (h : c.Puts lists key data es id extent c' lists') (hc : c.Sound lists [] [])
    (hkey : (c.catalog.directory.item x).key ≠ key)
    (hthere : c'.contains (c.catalog.directory.item x).key = .ok true) :
    x ∉ es.map (·.id) := by
  intro hmem
  obtain ⟨e, he, rfl⟩ := List.mem_map.1 hmem
  have hothers := ((h.contains_iff hc).1 hthere).resolve_left hkey
  exact hothers.2 e he (congrArg (·.key) (h.names e he).2.2)

/-- If a put evicts the youngest item, then only after all others but those behind it, so that what
survives the put stood behind it. -/
theorem Puts.gone_before_youngest {data : ByteArray} {before after : List Eviction} {e : Eviction}
    {id : Nat} {extent : Extent}
    (h : c.Puts lists key data (before ++ e :: after) id extent c' lists')
    (hc : c.Sound lists [] []) (hm : c.catalog.directory.Youngest lists m) (he : e.id = m) :
    ∃ front back, lists (c.catalog.directory.binOf (c.catalog.directory.item m).key) =
        front ++ m :: back ∧
      ∀ x ∈ rows lists c.catalog.directory.binCount, (c.catalog.directory.item x).key ≠ key →
        x ≠ m → x ∉ back → x ∈ before.map (·.id) := by
  obtain ⟨hbin, hmem, _⟩ := h.names e (by simp)
  have hhome : c.catalog.directory.binOf (c.catalog.directory.item m).key = e.bin := by
    rw [← he]
    exact hc.laid.home e.bin hbin e.id hmem
  obtain ⟨front, back, hsplit, hgone⟩ := (hm.filter (.refl _) fun _ _ => rfl).shed h.sheds he
  -- The old item of the key has gone first; it may have stood on either side.
  obtain ⟨front', rest, hlist, _, hrest⟩ := List.filter_eq_append_iff.1 hsplit
  obtain ⟨between, back', rfl, _, _, hback⟩ := List.filter_eq_cons_iff.1 hrest
  refine ⟨front' ++ between, back', ?_, fun x hx hkey hne hbehind => ?_⟩
  · rw [hhome, hlist, List.append_assoc]
  · apply hgone x (mem_rows_filter.2 ⟨hx, hkey⟩) hne
    intro hxback
    rw [← hback] at hxback
    exact hbehind (List.mem_of_mem_filter hxback)

/-- A put of another key evicts the item that was used last only when every other bin is empty and
everything in front of it is gone, and whatever survives such a put stood behind it. No single
eviction takes it while two bins are occupied, neither between requests nor on the way of a put. -/
theorem Reachable.youngest_goes_last (h : c.Reachable) (hm : c.Resident m)
    (hlast : ∀ x, c.Resident x →
      (c.catalog.directory.item x).time ≤ (c.catalog.directory.item m).time) :
    (∀ key data stored c' events before e after,
      c.put key data = .ok ⟨.ok stored, c', events⟩ → evictedIn events = before ++ e :: after →
      e.id = m →
      ∃ front back,
        c.catalog.directory.chain (c.catalog.directory.binOf (c.catalog.directory.item m).key) =
          .ok (front ++ m :: back) ∧
        (∀ x, c.Resident x → (c.catalog.directory.item x).key ≠ key → x ≠ m → x ∉ back →
          x ∈ before.map (·.id)) ∧
        ∀ x, c.Resident x → (c.catalog.directory.item x).key ≠ key →
          c'.contains (c.catalog.directory.item x).key = .ok true → x ∈ back) ∧
    ∀ s₀ es s e s' events b b', (s₀ = c ∨ ∃ key found, c.forget key = .ok (found, s₀)) →
      EvictsWhile (fun _ => True) s₀ es s → s.Occupied b → s.Occupied b' → b ≠ b' →
      s.evict = .ok ⟨some e, s', events⟩ → e.id ≠ m := by
  rcases h with ⟨c₀, requests, turns, hfresh, hrun⟩
  obtain ⟨lists, htrace⟩ := Trace.of_run hfresh hrun
  have hsound := htrace.sound
  have hyoungest : c.catalog.directory.Youngest lists m :=
    htrace.recent.youngest hsound (hsound.resident_iff.1 hm) fun x hx =>
      hlast x (hsound.resident_iff.2 hx)
  refine ⟨?put, ?evict⟩
  case put =>
    intro key data stored c' events before e after hput hevents he
    obtain ⟨lists', hstep⟩ := hsound.put_step hput
    cases hstep with
    | stored hputs =>
        rw [evictedIn_map] at hevents
        subst hevents
        obtain ⟨front, back, hlist, hgone⟩ := hputs.gone_before_youngest hsound hyoungest he
        have hchain := hsound.laid.spells.chain_eq
          (Nat.le_of_lt (hsound.laid.binOf_lt (c.catalog.directory.item m).key))
        refine ⟨front, back, hchain.trans (congrArg _ hlist), fun x hx => ?_,
          fun x hx hxkey hthere => ?_⟩
        · exact hgone x (hsound.resident_iff.1 hx)
        · -- What survives is not evicted, and `m` and all that is not behind it are.
          by_contra hbehind
          apply hputs.not_evicted hsound hxkey hthere
          rw [List.map_append, List.map_cons, List.mem_append, List.mem_cons]
          by_cases hne : x = m
          · exact Or.inr (Or.inl (hne.trans he.symm))
          · exact Or.inl (hgone x (hsound.resident_iff.1 hx) hxkey hne hbehind)
  case evict =>
    intro s₀ es s e s' events b b' hstart hes hb hb' hne hevict
    -- Whatever has gone before, `m` is younger than what is left.
    obtain ⟨lists₀, hsound₀, hyoungest₀⟩ : ∃ lists₀, s₀.Sound lists₀ [] [] ∧
        s₀.catalog.directory.Youngest lists₀ m := by
      rcases hstart with rfl | ⟨key, found, hforget⟩
      · exact ⟨lists, hsound, hyoungest⟩
      · obtain ⟨lists₀, hsound₀, hkeeps₀, _⟩ := hsound.of_forget hforget
        exact ⟨lists₀, hsound₀, hyoungest.filter hkeeps₀.items hkeeps₀.bins⟩
    obtain ⟨lists₁, hsound₁, hkeeps₁, _⟩ := hes.spec hsound₀
    have hyoungest₁ := hyoungest₀.filter hkeeps₁.items hkeeps₁.bins
    exact hsound₁.evict_spares_youngest hyoungest₁ hb hb' hne hevict

/-- In one bin the key 1 goes although it was found last, and the key 2, which stood behind it, is
still there. In two bins the entry 0 is spared as long as the other bin is occupied. -/
theorem Reachable.youngest_goes_last_bins :
    (∃ turns c stored c' front back,
      smallest.run [.put 1 ⟨#[1]⟩, .put 2 ⟨#[1]⟩, .get 1] = .ok (turns, c) ∧
      c.put 3 ⟨#[1]⟩ = .ok ⟨.ok stored, c', [.evicted ⟨0, 0, 1, 320, 16, 2⟩]⟩ ∧
      c.catalog.directory.chain 0 = .ok (front ++ 0 :: back) ∧ c'.contains 2 = .ok true ∧
      1 ∈ back) ∧
    ∃ c₀ turns c e s, create { chainLength := 1 } 512 = .ok c₀ ∧
      c₀.run [.put 0 ⟨#[1]⟩, .put 1 ⟨#[1]⟩, .get 0] = .ok (turns, c) ∧
      c.evict = .ok ⟨some e, s, [.evicted e]⟩ ∧ c.Occupied 0 ∧ c.Occupied 1 ∧ e.id ≠ 0 := by
  refine ⟨?oneBin, ?twoBins⟩
  case oneBin =>
    obtain ⟨turns, c, stored, c', hrun, hput, hlayout, hchain, hhome, hkey, htime, htime',
        hthere⟩ : ∃ turns c stored c',
        smallest.run [.put 1 ⟨#[1]⟩, .put 2 ⟨#[1]⟩, .get 1] = .ok (turns, c) ∧
        c.put 3 ⟨#[1]⟩ = .ok ⟨.ok stored, c', [.evicted ⟨0, 0, 1, 320, 16, 2⟩]⟩ ∧
        c.layout = smallest.layout ∧ c.catalog.directory.chain 0 = .ok [0, 1] ∧
        c.catalog.directory.binOf (c.catalog.directory.item 0).key = 0 ∧
        (c.catalog.directory.item 1).key = 2 ∧ (c.catalog.directory.item 0).time = 2 ∧
        (c.catalog.directory.item 1).time = 1 ∧ c'.contains 2 = .ok true :=
      ⟨_, _, _, _, rfl, rfl, rfl, rfl, rfl, rfl, rfl, rfl, rfl⟩
    have hbins : c.layout.binCount = 1 := by rw [hlayout]; rfl
    have hresident : ∀ x ∈ [0, 1], c.Resident x := fun x hx =>
      ⟨0, by omega, [0, 1], hchain, hx⟩
    have hlast : ∀ x, c.Resident x →
        (c.catalog.directory.item x).time ≤ (c.catalog.directory.item 0).time := by
      rintro x ⟨b, hb, ids, hids, hx⟩
      obtain rfl : b = 0 := by omega
      rw [hchain] at hids
      cases hids
      simp only [List.mem_cons, List.not_mem_nil, or_false] at hx
      rcases hx with rfl | rfl <;> omega
    obtain ⟨hputs, _⟩ := Reachable.youngest_goes_last
      ⟨smallest, _, turns, fresh_smallest, hrun⟩ (hresident 0 (by simp)) hlast
    obtain ⟨front, back, hsplit, _, hback⟩ :=
      hputs 3 _ _ _ _ [] ⟨0, 0, 1, 320, 16, 2⟩ [] hput rfl rfl
    rw [hhome] at hsplit
    have hmem := hback 1 (hresident 1 (by simp)) (by rw [hkey]; decide) (by rw [hkey]; exact hthere)
    exact ⟨turns, c, stored, c', front, back, hrun, hput, hsplit, hthere, hmem⟩
  case twoBins =>
    obtain ⟨c₀, turns, c, e, s, hcreate, hrun, hevict, hbins, hhead, hhead', hchain, hchain',
        htime, htime'⟩ : ∃ c₀ turns c e s, create { chainLength := 1 } 512 = .ok c₀ ∧
        c₀.run [.put 0 ⟨#[1]⟩, .put 1 ⟨#[1]⟩, .get 0] = .ok (turns, c) ∧
        c.evict = .ok ⟨some e, s, [.evicted e]⟩ ∧ c.layout.binCount = 2 ∧
        c.catalog.directory.head 0 = .ok (some 0) ∧ c.catalog.directory.head 1 = .ok (some 1) ∧
        c.catalog.directory.chain 0 = .ok [0] ∧ c.catalog.directory.chain 1 = .ok [1] ∧
        (c.catalog.directory.item 0).time = 2 ∧ (c.catalog.directory.item 1).time = 1 :=
      ⟨_, _, _, _, _, rfl, rfl, rfl, rfl, rfl, rfl, rfl, rfl, rfl, rfl⟩
    have hlast : ∀ x, c.Resident x →
        (c.catalog.directory.item x).time ≤ (c.catalog.directory.item 0).time := by
      rintro x ⟨b, hb, ids, hids, hx⟩
      rcases (show b = 0 ∨ b = 1 by omega) with rfl | rfl
      · rw [hchain] at hids
        cases hids
        rw [List.mem_singleton.1 hx]
      · rw [hchain'] at hids
        cases hids
        rw [List.mem_singleton.1 hx]
        omega
    have hfresh : c₀.Fresh := Or.inl ⟨{ chainLength := 1 }, 512, hcreate⟩
    obtain ⟨_, hevicts⟩ := Reachable.youngest_goes_last ⟨c₀, _, turns, hfresh, hrun⟩
      ⟨0, by omega, [0], hchain, by simp⟩ hlast
    have hoccupied : c.Occupied 0 := ⟨by omega, 0, hhead⟩
    have hoccupied' : c.Occupied 1 := ⟨by omega, 1, hhead'⟩
    exact ⟨c₀, turns, c, e, s, hcreate, hrun, hevict, hoccupied, hoccupied',
      hevicts c [] c e s _ 0 1 (Or.inl rfl) (.stop c) hoccupied hoccupied' (by decide) hevict⟩

end Cache
end BlockCache

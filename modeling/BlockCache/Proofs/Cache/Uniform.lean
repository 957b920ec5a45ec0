import BlockCache.Proofs.Cache.Agreement
import BlockCache.Proofs.Cache.Recency
import BlockCache.Proofs.Cache.Recall
import BlockCache.Proofs.Cache.Room
import Mathlib.Algebra.Order.BigOperators.Group.List

/-!
# Uniform — items of one size never fragment the store

Let every item that is stored have `length` bytes after rounding. Space is taken from the end of a
block, so the items lie in a grid that is counted from the end of the store, also where `length`
does not divide the store:

* `c.Aligned length x` — a whole number of items of `length` bytes fits between `x` and the end;
* `c.Paved length` — every item has `length` bytes and ends at such a place;
* `c.most length` — the number of items of `length` bytes that there are entries and space for.

A free block ends where an item begins or where the store ends, and begins where an item ends unless
it begins with the store. So the ends of blocks are places of the grid, and only a block at the
beginning of the store can be too short for an item; there is room exactly while less than the whole
grid is used (`Paved.hasRoom_iff`), whatever was dropped and in which order. From this it follows
how many items a put evicts (`Course.length_victims`) and that the cache fills up before it evicts
anything (`uniform_puts_fill`).
-/

namespace BlockCache

/-- Every item that the turns store has `length` bytes after rounding. -/
def UniformPuts (length : Nat) (turns : List Turn) : Prop :=
  ∀ t ∈ turns, ∀ k d, t.Stores k d → roundToGranule d.size = some length

namespace Cache

variable {c c' : Cache} {lists lists' : Nat → List Nat} {loose loose' : List Nat}
  {held held' : List Extent} {key : UInt32} {data : ByteArray} {length : Nat} {t : Turn}

/-! ## The grid -/

/-- A whole number of items of `length` bytes fits between `x` and the end of the store. -/
def Aligned (c : Cache) (length x : Nat) : Prop :=
  ∃ n, x + n * length = c.layout.storeLength

/-- Every item is one of the grid. -/
def Paved (c : Cache) (length : Nat) : Prop :=
  ∀ x, c.Resident x → (c.catalog.directory.item x).length = length ∧
    c.Aligned length (c.catalog.directory.item x).extent.stop

/-- The most items of `length` bytes that there are entries and space for. -/
def most (c : Cache) (length : Nat) : Nat :=
  min c.layout.entryCount (c.layout.storeLength / length)

/-- Between a place of the grid and a later one there is room for an item. -/
theorem Aligned.add_le {x y : Nat} (h : c.Aligned length x) (h' : c.Aligned length y)
    (hlt : x < y) : x + length ≤ y := by
  rcases h with ⟨n, hn⟩
  rcases h' with ⟨m, hm⟩
  -- Behind the earlier place there fit more items.
  have hmn : m < n := by
    by_contra hle
    have hmul := Nat.mul_le_mul_right length (Nat.le_of_not_lt hle)
    omega
  have hmul := Nat.mul_le_mul_right length (Nat.succ_le_of_lt hmn)
  rw [Nat.succ_mul] at hmul
  omega

namespace Paved

theorem blank (hc : c.Sound (blankLists c.layout) loose held) : c.Paved length := by
  intro x hx
  rw [hc.resident_iff, hc.rows_blank] at hx
  cases hx

/-- The grid does not depend on how many of the items are left. -/
theorem keeps {keep : Nat → Prop} [DecidablePred keep] (h : c.Paved length)
    (hc : c.Sound lists loose held) (hc' : c'.Sound lists' loose' held')
    (hkeeps : c.Keeps lists keep c' lists') : c'.Paved length := by
  intro x hx
  rw [hc'.resident_iff] at hx
  have hrow := (hkeeps.mem_rows_iff.1 hx).1
  rw [hkeeps.items.item_eq, Aligned, hkeeps.layout_eq]
  exact h x (hc.resident_iff.2 hrow)

/-! ## Free blocks -/

theorem block_stop (h : c.Paved length) (hc : c.Sound lists loose []) {b : Extent}
    (hb : b ∈ c.catalog.free.blocks) : c.Aligned length b.stop := by
  rcases hc.laid.block_stop hb with hstop | ⟨id, hid, hoffset⟩
  · refine ⟨0, ?_⟩
    rw [hstop, hc.free_eq, Nat.zero_mul, Nat.add_zero]
  · -- The item behind the block is one of the grid, and so is its other end.
    obtain ⟨hlength, n, hn⟩ := h id (hc.resident_iff.2 hid)
    refine ⟨n + 1, ?_⟩
    simp only [Extent.stop, Entry.extent] at hoffset hn ⊢
    rw [Nat.succ_mul]
    omega

theorem block_offset (h : c.Paved length) (hc : c.Sound lists loose []) {b : Extent}
    (hb : b ∈ c.catalog.free.blocks) : b.offset = 0 ∨ c.Aligned length b.offset := by
  rcases hc.laid.block_offset hb with hzero | ⟨id, hid, hstop⟩
  · exact Or.inl hzero
  · rw [← hstop]
    exact Or.inr (h id (hc.resident_iff.2 hid)).2

/-- A block that is too short for an item begins with the store. -/
theorem offset_eq_zero (h : c.Paved length) (hc : c.Sound lists loose []) {b : Extent}
    (hb : b ∈ c.catalog.free.blocks) (hshort : b.length < length) : b.offset = 0 := by
  rcases h.block_offset hc hb with hzero | haligned
  · exact hzero
  · have hlt : b.offset < b.stop :=
      Nat.lt_add_of_pos_right (hc.laid.tidy.whole b hb).nonempty
    have hle := haligned.add_le (h.block_stop hc hb) hlt
    simp only [Extent.stop] at hle
    omega

/-- Without room for an item, less is free than an item takes. -/
theorem freeBytes_lt (h : c.Paved length) (hc : c.Sound lists loose []) (hpos : 0 < length)
    (hnone : ¬ c.HasRoom length) : c.catalog.free.freeBytes < length := by
  have hshort : ∀ b ∈ c.catalog.free.blocks, b.length < length := by
    intro b hb
    by_contra hle
    exact hnone ⟨b, hb, Nat.le_of_not_lt hle⟩
  have hapart := hc.laid.tidy.apart
  cases hblocks : c.catalog.free.blocks with
  | nil =>
      rw [FreeList.freeBytes, hblocks]
      exact hpos
  | cons b rest =>
      rw [hblocks] at hshort hapart
      -- All blocks begin with the store, so there is no second one.
      have hrest : rest = [] := by
        rw [List.eq_nil_iff_forall_not_mem]
        intro b' hb'
        have hmem : b' ∈ c.catalog.free.blocks := by simp [hblocks, hb']
        have hzero := h.offset_eq_zero hc hmem (hshort b' (List.mem_cons_of_mem b hb'))
        have hbelow : b.stop < b'.offset := List.rel_of_pairwise_cons hapart hb'
        omega
      subst hrest
      have hfirst := hshort b (List.mem_singleton_self b)
      simpa [FreeList.freeBytes, sumOf, hblocks] using hfirst

/-! ## Counting -/

/-- What the items take and what is free make up the store. -/
theorem len_mul_add (h : c.Paved length) (hc : c.Sound lists [] []) :
    c.len * length + c.catalog.free.freeBytes = c.layout.storeLength := by
  have hall : (rows lists c.catalog.directory.binCount).map
      (fun id => (c.catalog.directory.item id).length) =
      List.replicate (rows lists c.catalog.directory.binCount).length length := by
    rw [List.map_eq_replicate_iff]
    intro id hid
    exact (h id (hc.resident_iff.2 hid)).1
  have hsum : sumOf (List.replicate c.len length) = c.len * length := List.sum_replicate_nat
  rw [← hc.sumOf_lengths, hall, ← hc.len_eq, hsum]

/-- There is room for one more item exactly while less than the whole grid is used. -/
theorem hasRoom_iff (h : c.Paved length) (hc : c.Sound lists [] []) (hpos : 0 < length) :
    c.HasRoom length ↔ c.len < c.layout.storeLength / length := by
  have hsum := h.len_mul_add hc
  rw [Nat.lt_iff_add_one_le, Nat.le_div_iff_mul_le hpos, Nat.succ_mul]
  -- One more item fits exactly if as much is free as it takes.
  constructor
  · rintro ⟨b, hb, hle⟩
    have hfree : b.length ≤ c.catalog.free.freeBytes :=
      List.le_sum_of_mem (List.mem_map_of_mem hb)
    omega
  · intro hle
    by_contra hnone
    have hlt := h.freeBytes_lt hc hpos hnone
    omega

theorem len_le_div (h : c.Paved length) (hc : c.Sound lists [] []) (hpos : 0 < length) :
    c.len ≤ c.layout.storeLength / length := by
  have hsum := h.len_mul_add hc
  rw [Nat.le_div_iff_mul_le hpos]
  omega

theorem len_le_most (h : c.Paved length) (hc : c.Sound lists [] []) (hpos : 0 < length) :
    c.len ≤ c.most length := by
  have hentries := hc.len_add_spare
  rw [hc.entries_eq] at hentries
  exact Nat.le_min.2 ⟨by omega, h.len_le_div hc hpos⟩

/-- One eviction makes room, and none is needed while less than the whole grid is used. -/
theorem isLeast_roomAfter (h : c.Paved length) (hc : c.Sound lists [] []) (hpos : 0 < length)
    (hle : length ≤ c.layout.storeLength) : IsLeast (c.roomAfter length)
      (if c.len < c.layout.storeLength / length then 0 else 1) := by
  have hroom := h.hasRoom_iff hc hpos
  split_ifs with hlt
  · exact ⟨⟨[], c, .stop c, rfl, hroom.2 hlt⟩, fun n _ => Nat.zero_le n⟩
  · refine ⟨?_, ?_⟩
    · have hone : 1 ≤ c.layout.storeLength / length := (Nat.one_le_div_iff hpos).2 hle
      rcases hc.evict_spec with ⟨_, hempty⟩ | ⟨e, c₁, hevict, _, _, _, hsound, hkeeps, hgone, _⟩
      · -- A cache without items would have room.
        have hzero := hc.len_eq
        rw [hempty, List.length_nil] at hzero
        omega
      · have hbound := h.len_le_div hc hpos
        have hlen := hgone.len_add
        have hroom₁ := (h.keeps hc hsound hkeeps).hasRoom_iff hsound hpos
        rw [hkeeps.layout_eq] at hroom₁
        exact ⟨[e], c₁, .evict trivial hevict (.stop c₁), rfl, hroom₁.2 (by omega)⟩
    · -- Without an eviction there would be no room.
      rintro n ⟨es, c₁, hes, rfl, hroom₁⟩
      cases hes with
      | stop => exact absurd (hroom.1 hroom₁) hlt
      | evict _ _ _ => exact Nat.succ_le_succ (Nat.zero_le _)

end Paved

/-! ## Putting -/

namespace Course

variable (p : c.Course key data length)

/-- A put evicts one item if no more items fit next to those of other keys, and none otherwise. -/
theorem length_victims (h : c.Sound lists [] []) (hpaved : c.Paved length) (hpos : 0 < data.size)
    (hround : roundToGranule data.size = some length) (hle : length ≤ c.layout.storeLength) :
    p.victims.length = if p.dropped.len < c.most length then 0 else 1 := by
  obtain ⟨lists₀, hsound₀, hkeeps₀, _⟩ := p.dropped_spec h
  have hpaved₀ := hpaved.keeps h hsound₀ hkeeps₀
  have hlength : 0 < length := Nat.lt_of_lt_of_le hpos (roundToGranule_eq_some hround).1
  obtain ⟨least, _, hleast, _, hcount⟩ := p.victims_spec h hpos hround
  have hspare := hsound₀.spare_eq_none_iff
  rw [hsound₀.entries_eq, hkeeps₀.layout_eq] at hspare
  have hbound := hpaved₀.len_le_most hsound₀ hlength
  rw [most, hkeeps₀.layout_eq] at hbound
  have hroom := hpaved₀.isLeast_roomAfter hsound₀ hlength (hkeeps₀.layout_eq ▸ hle)
  rw [hkeeps₀.layout_eq] at hroom
  -- The first loop takes as many items as it takes in a paved cache, which is one at most.
  have hunique := hleast.unique hroom
  rw [hcount, most]
  by_cases hspace : p.dropped.len < c.layout.storeLength / length
  · -- There is room, so only an entry can be missing.
    rw [if_pos hspace] at hunique
    simp only [hunique, hspare, true_and]
    split_ifs <;> omega
  · -- One item has to go for space, and leaves its entry, too.
    rw [if_neg hspace] at hunique
    rw [hunique, if_neg (fun h => Nat.one_ne_zero h.1), if_neg (by omega)]

/-- The new item is one of the grid. -/
theorem aligned_extent (h : c.Sound lists [] []) (hpaved : c.Paved length) :
    c.Aligned length p.extent.stop := by
  obtain ⟨lists₀, hsound₀, hkeeps₀, _⟩ := p.dropped_spec h
  obtain ⟨lists₁, hsound₁, hkeeps₁, _⟩ := p.evicts_for_space.spec hsound₀
  have hpaved₁ := (hpaved.keeps h hsound₀ hkeeps₀).keeps hsound₀ hsound₁ hkeeps₁
  -- It comes from the end of a block.
  obtain ⟨before, b, after, hblocks, _, _, hstop, _⟩ := FreeList.allocate_eq_some p.allocate_eq
  have haligned := hpaved₁.block_stop hsound₁ (b := b) (by simp [hblocks])
  rw [Aligned, hkeeps₁.layout_eq, hkeeps₀.layout_eq, ← hstop] at haligned
  exact haligned

end Course

theorem Puts.paved {es : List Eviction} {id : Nat} {extent : Extent}
    (h : c.Puts lists key data es id extent c' lists') (hc : c.Sound lists [] [])
    (hpaved : c.Paved extent.length) (haligned : c.Aligned extent.length extent.stop) :
    c'.Paved extent.length := by
  intro x hx
  rw [h.sound.resident_iff, h.mem_rows_iff hc] at hx
  rw [Aligned, h.layout_eq]
  rcases hx with ⟨hrow, hstays⟩ | rfl
  · rw [h.item_of_survives hrow hstays]
    exact hpaved x (hc.resident_iff.2 hrow)
  · rw [h.item_self]
    exact ⟨rfl, haligned⟩

/-- What a put of an item of the grid evicts, and how many items there are then. -/
theorem Paved.put_spec {stored : ByteArray} {events : List Event} (h : c.Paved length)
    (hc : c.Sound lists [] []) (hput : c.put key data = .ok ⟨.ok stored, c', events⟩)
    (hround : roundToGranule data.size = some length) :
    c'.Paved length ∧ ∃ (found : Bool) (es : List Eviction),
      c.contains key = .ok found ∧ events = es.map .evicted ∧
      c'.len + es.length + found.toNat = c.len + 1 ∧
      es.length = if c.len < c.most length + found.toNat then 0 else 1 := by
  obtain ⟨hpos, hfits, htime⟩ := hc.of_put hput
  obtain ⟨hle, hinsert, ⟨p⟩⟩ := hc.put_course key hpos hround hfits
  obtain ⟨c'', lists', hok, hputs, hlen⟩ := p.insert_spec hc htime hpos hround
  rw [hinsert, hok] at hput
  cases hput
  obtain ⟨hfound, hdropped⟩ := forget_found p.forget_eq
  have hcount := p.length_victims hc h hpos hround hle
  refine ⟨hputs.paved hc h (p.aligned_extent hc h), p.found, p.victims, hfound, rfl, by omega, ?_⟩
  rw [hcount]
  split_ifs <;> omega

/-! ## Runs -/

/-- A turn that neither stores anything nor empties the cache leaves every item where it is. -/
theorem Step.paved (h : Step c lists t c' lists') (hc : c.Sound lists [] [])
    (hpaved : c.Paved length) (hidle : t.Idle) : c'.Paved length ∧ c'.len = c.len := by
  cases h with
  | stored _ => exact absurd rfl (hidle.answer _)
  | emptied => exact absurd rfl hidle.request
  | @hit key data id d' _ _ _ hbins hitems hsound =>
      refine ⟨fun x hx => ?_, rfl⟩
      rw [hsound.resident_iff] at hx
      replace hx : x ∈ rows lists d'.binCount := hx
      rw [hbins] at hx
      -- The time of an entry is not part of where its item lies.
      obtain ⟨now, hitem⟩ := Directory.item_of_stamped hitems x
      show (d'.item x).length = length ∧ Aligned c length (d'.item x).extent.stop
      rw [hitem]
      exact hpaved x (hc.resident_iff.2 hx)
  | _ => exact ⟨hpaved, rfl⟩

/-- A request leaves no fewer items than there were, and evicts only from a cache that is full. -/
theorem Paved.perform {r : Request} {o : Outcome Answer} (h : c.Paved length)
    (hc : c.Sound lists [] []) (hpos : 0 < length) (hperform : c.perform r = .ok o)
    (hr : r ≠ .empty) (huniform : ∀ k d, Turn.Stores ⟨r, o.answer, o.events⟩ k d →
      roundToGranule d.size = some length) :
    o.cache.Paved length ∧ c.len ≤ o.cache.len ∧
      ∀ e, .evicted e ∈ o.events → c.len = c.most length := by
  obtain ⟨lists', hstep⟩ := hc.perform_step hperform
  rcases hstep.idle_cases with hempty | ⟨k, d, hstores⟩ | hidle
  · exact absurd hempty hr
  · have hround := huniform k d hstores
    obtain ⟨hrequest, stored, hanswer⟩ := hstores
    dsimp only at hrequest hanswer
    subst hrequest
    obtain ⟨⟨answer, c', events⟩, hput, hperform⟩ := eq_ok_of_bind hperform
    cases hperform
    cases hanswer
    -- An item goes only where another one comes.
    obtain ⟨hpaved, found, es, _, rfl, hlen, hcount⟩ := h.put_spec hc hput hround
    have hmost := h.len_le_most hc hpos
    have hfound : found.toNat ≤ 1 := Bool.toNat_le found
    refine ⟨hpaved, ?_, fun e he => ?_⟩
    · dsimp only
      split_ifs at hcount <;> omega
    · obtain ⟨_, hmem, _⟩ := List.mem_map.1 he
      have hsome := List.length_pos_of_mem hmem
      split_ifs at hcount <;> omega
  · obtain ⟨hpaved, hlen⟩ := hstep.paved hc h hidle
    exact ⟨hpaved, Nat.le_of_eq hlen.symm, fun e he => absurd he (hidle.events e)⟩

/-- A run that stores items of one size and does not empty the cache loses no items. -/
theorem Paved.run {requests : List Request} {turns : List Turn} (h : c.Paved length)
    (hc : c.Sound lists [] []) (hpos : 0 < length) (hrun : c.run requests = .ok (turns, c'))
    (huniform : UniformPuts length turns) (hkept : ∀ t ∈ turns, t.empties = false) :
    ∃ lists', c'.Sound lists' [] [] ∧ c'.layout = c.layout ∧ c'.Paved length ∧
      c.len ≤ c'.len := by
  induction requests generalizing c lists turns with
  | nil =>
      cases hrun
      exact ⟨lists, hc, rfl, h, Nat.le_refl _⟩
  | cons r rest ih =>
      obtain ⟨o, hperform, hrun⟩ := eq_ok_of_bind hrun
      obtain ⟨⟨turns', last⟩, hrest, hrun⟩ := eq_ok_of_bind hrun
      cases hrun
      obtain ⟨lists₁, hstep⟩ := hc.perform_step hperform
      obtain ⟨hfirst, hothers⟩ := List.forall_mem_cons.1 huniform
      obtain ⟨hkeptFirst, hkeptOthers⟩ := List.forall_mem_cons.1 hkept
      have hr : r ≠ .empty := by
        rintro rfl
        cases hkeptFirst
      obtain ⟨hpaved₁, hlen₁, _⟩ := h.perform hc hpos hperform hr hfirst
      obtain ⟨lists', hsound, hlayout, hpaved, hlen⟩ :=
        ih hpaved₁ (hstep.sound hc) hrest hothers hkeptOthers
      exact ⟨lists', hsound, hlayout.trans hstep.layout_eq, hpaved, Nat.le_trans hlen₁ hlen⟩

/-- A cache is paved after every run that has stored items of one size since it was emptied. -/
theorem Fresh.paved {c₀ : Cache} {requests : List Request} {turns : List Turn}
    (hfresh : c₀.Fresh) (hrun : c₀.run requests = .ok (turns, c)) (hpos : 0 < length)
    (huniform : UniformPuts length (sinceEmptied turns)) :
    ∃ lists, c.Sound lists [] [] ∧ c.Paved length := by
  have hkept : ∀ t ∈ sinceEmptied turns, t.empties = false := fun t ht =>
    not_empties_of_mem_sinceEmptied ht
  -- The run since then begins with a cache that has no items.
  obtain ⟨c₁, lists₁, requests₁, hsound₁, hpaved₁, hrun₁⟩ :
      ∃ (c₁ : Cache) (lists₁ : Nat → List Nat) (requests₁ : List Request),
        c₁.Sound lists₁ [] [] ∧ c₁.Paved length ∧
          c₁.run requests₁ = .ok (sinceEmptied turns, c) := by
    rcases sinceEmptied_cases turns with hall | ⟨before, t, hempties, hturns⟩
    · have hsound := hfresh.sound.1
      exact ⟨c₀, _, requests, hsound, .blank hsound, hall.symm ▸ hrun⟩
    · rw [hturns] at hrun
      obtain ⟨c₁, c₂, hbefore, hperform, hafter⟩ := run_split hrun
      obtain ⟨lists₁, htrace⟩ := Trace.of_run hfresh hbefore
      have hsound := htrace.sound.empty_sound
      obtain ⟨request, answer, events⟩ := t
      cases request with
      | empty =>
          cases hperform
          exact ⟨_, _, _, hsound, .blank hsound, hafter⟩
      | _ => cases hempties
  obtain ⟨lists, hsound, _, hpaved, _⟩ := hpaved₁.run hsound₁ hpos hrun₁ huniform hkept
  exact ⟨lists, hsound, hpaved⟩

/-- As long as all items that are stored have one size, no space is lost between them. A put evicts
nothing if its key is there or if there are fewer items than entries and space allow, and one item
otherwise. So the cache never has fewer items than before, and it has as many as it can have before
it evicts the first one. -/
theorem uniform_puts_fill {c₀ : Cache} {requests : List Request} {turns : List Turn}
    (hfresh : c₀.Fresh) (hrun : c₀.run requests = .ok (turns, c)) (hpos : 0 < length)
    (huniform : UniformPuts length (sinceEmptied turns)) :
    c.len ≤ c.most length ∧
    (∀ key data stored c' events, c.put key data = .ok ⟨.ok stored, c', events⟩ →
      roundToGranule data.size = some length →
      (c.contains key = .ok true ∨ c.len < c.most length → events = []) ∧
      (¬ (c.contains key = .ok true ∨ c.len < c.most length) → ∃ e, events = [.evicted e])) ∧
    ∀ requests' more c', c.run requests' = .ok (more, c') → UniformPuts length more →
      (∀ t ∈ more, t.empties = false) → c.len ≤ c'.len ∧
      ∀ before t after e, more = before ++ t :: after → .evicted e ∈ t.events →
        ∃ c₁, c.run (requests'.take before.length) = .ok (before, c₁) ∧
          c₁.len = c.most length := by
  obtain ⟨lists, hsound, hpaved⟩ := hfresh.paved hrun hpos huniform
  have hmost := hpaved.len_le_most hsound hpos
  refine ⟨hmost, fun key data stored c' events hput hround => ?_,
    fun requests' more c' hrun' huniform' hkept => ⟨?_, ?_⟩⟩
  · obtain ⟨_, found, es, hfound, rfl, _, hcount⟩ := hpaved.put_spec hsound hput hround
    rw [hfound]
    cases found with
    | true =>
        rw [if_pos (by simpa using Nat.lt_succ_of_le hmost)] at hcount
        rw [List.length_eq_zero_iff.1 hcount]
        simp
    | false =>
        simp only [Bool.toNat_false, Nat.add_zero] at hcount
        refine ⟨fun h => ?_, fun h => ?_⟩
        · rw [if_pos (h.resolve_left (by simp))] at hcount
          rw [List.length_eq_zero_iff.1 hcount]
          rfl
        · rw [if_neg fun hlt => h (Or.inr hlt)] at hcount
          obtain ⟨e, rfl⟩ := List.length_eq_one_iff.1 hcount
          exact ⟨e, rfl⟩
  · obtain ⟨_, _, _, _, hlen⟩ := hpaved.run hsound hpos hrun' huniform' hkept
    exact hlen
  · rintro before t after e rfl he
    obtain ⟨c₁, c₂, hbefore, hperform, _⟩ := run_split hrun'
    obtain ⟨huniformBefore, huniformAfter⟩ := List.forall_mem_append.1 huniform'
    obtain ⟨hkeptBefore, hkeptAfter⟩ := List.forall_mem_append.1 hkept
    obtain ⟨lists₁, hsound₁, hlayout, hpaved₁, _⟩ :=
      hpaved.run hsound hpos hbefore huniformBefore hkeptBefore
    have hr : t.request ≠ .empty := by
      intro hempty
      have hnot := hkeptAfter t (List.mem_cons_self ..)
      rw [Turn.empties, hempty] at hnot
      cases hnot
    obtain ⟨_, _, hfull⟩ := hpaved₁.perform hsound₁ hpos hperform hr
      (huniformAfter t (List.mem_cons_self ..))
    have hlen := hfull e he
    rw [most, hlayout] at hlen
    exact ⟨c₁, hbefore, hlen⟩

/-- A store of three granules has space for one item of two granules. It is full with one, though
there are entries left, and the next put of another key evicts one. -/
theorem uniform_puts_fill_one :
    ∃ c₀ turns c c' e, create { entryPercentage := 80 } 512 = .ok c₀ ∧
      c₀.run [.put 1 ⟨Array.replicate 17 7⟩, .get 1] = .ok (turns, c) ∧
      c.layout.storeLength = 48 ∧ c.layout.entryCount = 8 ∧ c.len = c.most 32 ∧
      c.put 2 ⟨Array.replicate 20 7⟩ = .ok ⟨.ok ⟨Array.replicate 20 7⟩, c', [.evicted e]⟩ := by
  obtain ⟨c₀, turns, c, hcreate, hrun, hrequests, htime, hstore, hentries, hlen, hmissing⟩ :
      ∃ c₀ turns c, create { entryPercentage := 80 } 512 = .ok c₀ ∧
        c₀.run [.put 1 ⟨Array.replicate 17 7⟩, .get 1] = .ok (turns, c) ∧
        turns.map (·.request) = [.put 1 ⟨Array.replicate 17 7⟩, .get 1] ∧ c.time = 2 ∧
        c.layout.storeLength = 48 ∧ c.layout.entryCount = 8 ∧ c.len = 1 ∧
        c.contains 2 = .ok false :=
    ⟨_, _, _, rfl, rfl, rfl, rfl, rfl, rfl, rfl, rfl⟩
  have hmost : c.most 32 = 1 := by
    rw [most, hstore, hentries]
    decide
  have huniform : UniformPuts 32 (sinceEmptied turns) := by
    rintro t ht k d ⟨hrequest, _⟩
    have hmem : t.request ∈ turns.map (·.request) :=
      List.mem_map_of_mem ((List.rtakeWhile_suffix _ turns).subset ht)
    rw [hrequests, hrequest] at hmem
    simp only [List.mem_cons, Request.put.injEq, reduceCtorEq, List.not_mem_nil, or_false] at hmem
    rw [hmem.2]
    rfl
  have hfresh : c₀.Fresh := Or.inl ⟨{ entryPercentage := 80 }, 512, hcreate⟩
  obtain ⟨lists, htrace⟩ := Trace.of_run hfresh hrun
  have hfits : ByteArray.size ⟨Array.replicate 20 7⟩ ≤ c.layout.storeLength := by
    rw [hstore]
    decide
  obtain ⟨es, _, _, c', _, hput, _⟩ :=
    htrace.sound.put_spec 2 (by rw [htime]; decide) (by decide) hfits
  obtain ⟨_, hputs, _⟩ := uniform_puts_fill hfresh hrun (by decide) huniform
  have hfull : ¬ (c.contains 2 = .ok true ∨ c.len < c.most 32) := by
    rw [hmissing, hlen, hmost]
    simp
  obtain ⟨e, hevents⟩ := (hputs 2 _ _ _ _ hput rfl).2 hfull
  rw [hevents] at hput
  exact ⟨c₀, turns, c, c', e, hcreate, hrun, hstore, hentries, hlen.trans hmost.symm, hput⟩

end Cache
end BlockCache

import BlockCache.Proofs.Cache.Trace

/-!
# Reachable — what holds in every state that requests lead to

In every such state the chains, the items, the free blocks and the number of items agree, and a put
answers what the size of its item tells, whatever is cached and however the store is cut up.
-/

namespace BlockCache
namespace Cache

open Extent

variable {c : Cache} {lists : Nat → List Nat} {key : UInt32} {data : ByteArray}

theorem reachable_smallest : smallest.Reachable :=
  ⟨smallest, [], [], fresh_smallest, rfl⟩

/-! ## Parts that agree -/

/-- The chains end and hold every entry once; every item sits in the bin of its key, which no other
item has, and takes the granules that its bytes need; items and free blocks cover every byte of the
store once, and the free blocks are whole, in order and apart. -/
theorem Reachable.parts_agree (h : c.Reachable) :
    let d := c.catalog.directory
    let blocks := c.catalog.free.blocks
    d.binCount = c.layout.binCount ∧ d.capacity = c.layout.entryCount ∧
    ∃ lists : Nat → List Nat,
      (∀ b ≤ c.layout.binCount,
        Leads d.entries (d.headOf b) (lists b) none ∧ d.chain b = .ok (lists b)) ∧
      (∀ id, (rows lists (c.layout.binCount + 1)).count id =
        if id < c.layout.entryCount then 1 else 0) ∧
      (∀ b < c.layout.binCount, ∀ id ∈ lists b, d.binOf (d.item id).key = b) ∧
      (∀ id ∈ rows lists c.layout.binCount, ∀ id' ∈ rows lists c.layout.binCount,
        (d.item id).key = (d.item id').key → id = id') ∧
      c.len = (rows lists c.layout.binCount).length ∧
      (∀ id ∈ rows lists c.layout.binCount,
        0 < (d.item id).dataLength ∧ (d.item id).dataLength ≤ (d.item id).length ∧
        roundToGranule (d.item id).dataLength = some (d.item id).length) ∧
      (∀ x, (rows lists c.layout.binCount).countP (fun id => x ∈ (d.item id).extent) +
        coverage blocks x = if x < c.layout.storeLength then 1 else 0) ∧
      blocks.Pairwise (fun a b => a.stop < b.offset) ∧
      ∀ b ∈ blocks, 0 < b.length ∧ granule ∣ b.length ∧ granule ∣ b.offset := by
  obtain ⟨lists, hsound⟩ := h.sound
  have hlaid := hsound.laid
  have hbins := hsound.bins_eq
  refine ⟨hbins, hsound.entries_eq, lists, ?_⟩
  rw [← hbins, ← hsound.entries_eq, ← hsound.free_eq]
  refine ⟨fun b hb => ⟨hlaid.spells.leads b hb, hlaid.spells.chain_eq hb⟩, ?_, hlaid.home,
    hlaid.keys, hsound.len_eq, fun id hid => ?_, fun x => ?_, hlaid.tidy.apart, fun b hb => ?_⟩
  · intro id
    have honce := hlaid.once id
    rwa [List.count_nil, Nat.add_zero] at honce
  · have hstored := hlaid.stored id hid
    exact ⟨hstored.positive, hstored.dataLength_le, hstored.rounded⟩
  · have htiled := hlaid.tiled x
    rwa [coverage_nil, Nat.add_zero] at htiled
  · have hwhole := hlaid.tidy.whole b hb
    exact ⟨hwhole.nonempty, hwhole.length_dvd, hwhole.offset_dvd⟩

/-- With one item, every byte of the store belongs to it or to the free block below it. -/
theorem Reachable.parts_agree_one_item :
    ∃ turns c, smallest.run [.put 7 ⟨#[1]⟩] = .ok (turns, c) ∧ c.len = 1 ∧
      c.catalog.free.blocks = [⟨0, 320⟩] ∧
      ∃ lists : Nat → List Nat, (rows lists 1).length = 1 ∧
        ∀ x, 320 ≤ x → x < 336 →
          (rows lists 1).countP (fun id => x ∈ (c.catalog.directory.item id).extent) = 1 := by
  obtain ⟨turns, c, hrun, hlen, hblocks, hlayout⟩ :
      ∃ turns c, smallest.run [.put 7 ⟨#[1]⟩] = .ok (turns, c) ∧ c.len = 1 ∧
        c.catalog.free.blocks = [⟨0, 320⟩] ∧ c.layout = smallest.layout :=
    ⟨_, _, rfl, rfl, rfl, rfl⟩
  obtain ⟨_, _, lists, _, _, _, _, hcount, _, htiled, _⟩ :=
    Reachable.parts_agree ⟨smallest, _, turns, fresh_smallest, hrun⟩
  rw [hlayout] at hcount htiled
  refine ⟨turns, c, hrun, hlen, hblocks, lists, hcount.symm.trans hlen, fun x hlow hhigh => ?_⟩
  have hbyte := htiled x
  have hfree : coverage c.catalog.free.blocks x = 0 := by
    rw [hblocks, coverage_cons, coverage_nil, if_neg]
    rintro ⟨_, hlt⟩
    simp only [stop] at hlt
    omega
  rw [hfree, if_pos (show x < smallest.layout.storeLength from hhigh)] at hbyte
  exact hbyte

/-! ## What a put answers -/

/-- An answer to an item that fits the store says that it is stored. -/
theorem Sound.put_answer_eq (h : c.Sound lists [] []) (hpos : 0 < data.size)
    (hle : data.size ≤ c.layout.storeLength) {o : Outcome (Except CacheError ByteArray)}
    (hput : c.put key data = .ok o) : o.answer = .ok data := by
  rcases Nat.lt_or_ge (c.time + 1) Word.limit with htime | htime
  · obtain ⟨es, _, _, c', _, hok, _⟩ := h.put_spec key htime hpos hle
    rw [hok] at hput
    cases hput
    rfl
  · obtain ⟨i, herror, _⟩ := h.put_overflow key htime hpos hle
    rw [herror] at hput
    cases hput

/-- Items are refused before anything is done, and only for their size. -/
theorem Sound.put_error_keeps (h : c.Sound lists [] []) {e : CacheError} {c' : Cache}
    {events : List Event} (hput : c.put key data = .ok ⟨.error e, c', events⟩) : c' = c := by
  rcases Nat.eq_zero_or_pos data.size with hempty | hpos
  · rw [put_empty hempty] at hput
    cases hput
    rfl
  rcases Nat.lt_or_ge c.layout.storeLength data.size with hbig | hle
  · rw [put_tooBig hbig] at hput
    cases hput
    rfl
  · have hok := h.put_answer_eq hpos hle hput
    cases hok

/-- A put refuses an item that is empty or longer than the store, and then leaves the cache as it
is. Every other item is stored, unless that would take the tick after the last one of the clock;
once it is rounded to granules, nothing refuses it any more. -/
theorem Reachable.put_answers (h : c.Reachable) (key : UInt32) (data : ByteArray) :
    (data.size = 0 → c.put key data = .ok ⟨.error (.badArgument .emptyItem), c, []⟩) ∧
    (c.layout.storeLength < data.size →
      c.put key data = .ok ⟨.error (.tooBig data.size c.layout.storeLength), c,
        [.rejected key data.size c.layout.storeLength]⟩) ∧
    (0 < data.size → data.size ≤ c.layout.storeLength →
      (c.time + 1 < Word.limit → ∃ c' events, c.put key data = .ok ⟨.ok data, c', events⟩) ∧
      (Word.limit ≤ c.time + 1 → ∃ i, c.put key data = .error i ∧ i.fault = .overflow) ∧
      ∃ length, roundToGranule data.size = some length ∧
        c.put key data = c.insert key data length ∧
        ∀ o, c.insert key data length = .ok o → o.answer = .ok data) ∧
    ∀ e c' events, c.put key data = .ok ⟨.error e, c', events⟩ → c' = c := by
  obtain ⟨lists, hsound⟩ := h.sound
  refine ⟨put_empty, put_tooBig, fun hpos hle => ⟨fun htime => ?_, fun htime => ?_, ?_⟩, ?_⟩
  · obtain ⟨es, _, _, c', _, hput, _⟩ := hsound.put_spec key htime hpos hle
    exact ⟨c', es.map .evicted, hput⟩
  · exact hsound.put_overflow key htime hpos hle
  · obtain ⟨length, hround, _, heq⟩ := hsound.put_eq_insert key hpos hle
    exact ⟨length, hround, heq, fun o ho => hsound.put_answer_eq hpos hle (heq.trans ho)⟩
  · exact fun e c' events hput => hsound.put_error_keeps hput

theorem Reachable.put_answers_smallest :
    smallest.put 7 ⟨#[]⟩ = .ok ⟨.error (.badArgument .emptyItem), smallest, []⟩ ∧
      ∃ c events, smallest.put 7 ⟨#[1]⟩ = .ok ⟨.ok ⟨#[1]⟩, c, events⟩ :=
  ⟨(Reachable.put_answers reachable_smallest 7 ⟨#[]⟩).1 rfl,
    ((Reachable.put_answers reachable_smallest 7 ⟨#[1]⟩).2.2.1 (by decide) (by decide)).1
      (by decide)⟩

/-- The clock counts in a machine word, so not every item that fits is stored in every state. -/
theorem Reachable.put_stops_at_last_tick :
    ¬ ∀ c : Cache, c.Reachable → ∀ (key : UInt32) (data : ByteArray), 0 < data.size →
      data.size ≤ c.layout.storeLength →
      ∃ c' events, c.put key data = .ok ⟨.ok data, c', events⟩ := by
  intro hall
  obtain ⟨requests, turns, c, lists, hrun, hsound, _, hlayout, htime⟩ := exists_last_tick
  have hle : ByteArray.size ⟨#[0]⟩ ≤ c.layout.storeLength := by
    rw [hlayout]
    decide
  obtain ⟨c', events, hput⟩ :=
    hall c ⟨smallest, requests, turns, fresh_smallest, hrun⟩ 0 ⟨#[0]⟩ (by decide) hle
  obtain ⟨i, herror, _⟩ := hsound.put_overflow 0 htime (by decide) hle
  rw [herror] at hput
  cases hput

end Cache
end BlockCache

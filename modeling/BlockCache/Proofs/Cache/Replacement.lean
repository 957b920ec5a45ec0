import BlockCache.Proofs.Cache.Frame
import BlockCache.Proofs.Cache.Room
import BlockCache.Proofs.Space.Runs

/-!
# Replacement — putting a key that is there

A put drops the old item of its key before it looks for space and for an entry. From then on

* the bytes of the old item are free, so some free block is at least as long as the item was,
  whatever neighbours it was merged with (`Keeps.hasRoom_of_lost`);
* the entry of the old item is spare, so no item has to go for an entry
  (`Course.entryVictims_eq_nil`).

The new item may be put into another block than the one of the old item, and into another entry.
-/

namespace BlockCache
namespace Cache

variable {c c' : Cache} {lists : Nat → List Nat} {key : UInt32} {data : ByteArray}
  {length id : Nat}

/-! ## Space -/

/-- Where an item was lost there is room for one that takes no more space. -/
theorem Keeps.hasRoom_of_lost {lists' : Nat → List Nat} {keep : Nat → Prop} [DecidablePred keep]
    (h : c.Keeps lists keep c' lists') (hc : c.Sound lists [] []) (hc' : c'.Sound lists' [] [])
    (hid : id ∈ rows lists c.catalog.directory.binCount) (hlost : ¬ keep id) (hpos : 0 < length)
    (hle : length ≤ (c.catalog.directory.item id).length) : c'.HasRoom length := by
  rw [hasRoom_iff, Option.ne_none_iff_exists']
  -- The item was a row of bytes, all of which are free now.
  apply hc'.laid.tidy.exists_allocate hpos
  intro i hi
  apply h.bytes_of_lost hc hc' hid hlost
  exact ⟨Nat.le_add_right _ _, Nat.add_lt_add_left (Nat.lt_of_lt_of_le hi hle) _⟩

/-- Nothing is evicted for space where there is room already. -/
theorem Course.spaceVictims_eq_nil (p : c.Course key data length)
    (hroom : p.dropped.HasRoom length) : p.spaceVictims = [] := by
  -- No evictions at all would have been enough.
  have hle := p.evicts_for_space.length_le (.stop (p := fun _ => True) p.dropped)
    (hasRoom_iff.1 hroom)
  exact List.length_eq_zero_iff.1 (Nat.le_zero.1 hle)

/-! ## Entries -/

/-- Nothing is evicted for an entry where an item was dropped. -/
theorem Course.entryVictims_eq_nil (p : c.Course key data length) (h : c.Sound lists [] [])
    (hpos : 0 < data.size) (hround : roundToGranule data.size = some length)
    (hfound : p.found = true) : p.entryVictims = [] := by
  obtain ⟨lists₀, hsound₀, hkeeps₀, _⟩ := p.dropped_spec h
  obtain ⟨lists₁, hsound₁, hkeeps₁, _, _, hlen₁⟩ := p.evicts_for_space.spec hsound₀
  have hwritten := (p.written_spec hsound₁ hpos hround).1
  rcases hwritten.evicts_for_entry_cases p.evicts_for_entry p.claim_eq with ⟨_, hnil⟩ | ⟨hfull, _⟩
  · exact hnil
  · -- The dropped item is missing among those that use the entries.
    have hdropped := (forget_found p.forget_eq).2
    rw [hfound] at hdropped
    have hwrittenLen : p.written.len + p.spaceVictims.length = p.dropped.len := hlen₁
    have hcapacity : p.written.catalog.directory.capacity = c.catalog.directory.capacity :=
      hkeeps₁.items.capacity_eq.trans hkeeps₀.items.capacity_eq
    have hspare := h.len_add_spare
    simp only [Bool.toNat_true] at hdropped
    omega

/-! ## Replacing -/

/-- The old item is found when it is dropped. -/
theorem Sound.found_of_item (h : c.Sound lists [] [])
    (hid : id ∈ rows lists c.catalog.directory.binCount)
    (hkey : (c.catalog.directory.item id).key = key) (p : c.Course key data length) :
    p.found = true := by
  have hthere : c.contains key = .ok true := h.contains_iff.2 ⟨id, hid, hkey⟩
  have hfound := (forget_found p.forget_eq).1
  rw [hthere] at hfound
  exact (Except.ok.inj hfound).symm

/-- A new item that takes no more space than the old one is stored without any eviction. -/
theorem Course.victims_eq_nil (p : c.Course key data length) (h : c.Sound lists [] [])
    (hid : id ∈ rows lists c.catalog.directory.binCount)
    (hkey : (c.catalog.directory.item id).key = key) (hpos : 0 < data.size)
    (hround : roundToGranule data.size = some length)
    (hle : length ≤ (c.catalog.directory.item id).length) : p.victims = [] := by
  obtain ⟨lists₀, hsound₀, hkeeps₀, _⟩ := p.dropped_spec h
  have hlength : 0 < length := Nat.lt_of_lt_of_le hpos (roundToGranule_eq_some hround).1
  have hroom : p.dropped.HasRoom length :=
    hkeeps₀.hasRoom_of_lost h hsound₀ hid (not_not_intro hkey) hlength hle
  have hspace := p.spaceVictims_eq_nil hroom
  have hentry := p.entryVictims_eq_nil h hpos hround (h.found_of_item hid hkey p)
  rw [victims, hspace, hentry]
  rfl

/-- If nothing is evicted, a put of a key that is there leaves all keys there, and the items of the
others as they are. -/
theorem Puts.keeps_others {extent : Extent} {lists' : Nat → List Nat} {id' : Nat}
    (h : c.Puts lists key data [] id' extent c' lists') (hc : c.Sound lists [] [])
    (hthere : c.contains key = .ok true) :
    (∀ k, c'.contains k = .ok true ↔ c.contains k = .ok true) ∧
      ∀ x, c.Resident x → (c.catalog.directory.item x).key ≠ key → c'.Resident x ∧
        c'.catalog.directory.item x = c.catalog.directory.item x ∧
        c'.store.read (c.catalog.directory.item x).offset
            (c.catalog.directory.item x).dataLength =
          c.store.read (c.catalog.directory.item x).offset
            (c.catalog.directory.item x).dataLength := by
  refine ⟨fun k => ?_, fun x hx hne => ?_⟩
  · rw [h.contains_iff hc]
    constructor
    · rintro (rfl | ⟨hk, _⟩)
      · exact hthere
      · exact hk
    · intro hk
      exact Or.inr ⟨hk, by simp⟩
  · have hstays : c.Survives key [] x := ⟨hne, by simp⟩
    obtain ⟨hresident, _, hitem, hread⟩ := (h.framesPut hc).survivor x hx hstays
    exact ⟨hresident, hitem, hread⟩

/-- A put of a key that is there never evicts for want of an entry: all that it evicts goes while no
free block has room. It evicts nothing at all if the new item needs no more space than the old one
has reserved; then every other item stays as it is. Only the last tick of the clock keeps such a put
from succeeding. -/
theorem Reachable.replace_keeps_others (h : c.Reachable) (hid : c.Resident id)
    (hkey : (c.catalog.directory.item id).key = key) (data : ByteArray) (hpos : 0 < data.size) :
    (∀ length, roundToGranule data.size = some length →
      length ≤ (c.catalog.directory.item id).length →
      (c.time + 1 < Word.limit → ∃ c', c.put key data = .ok ⟨.ok data, c', []⟩ ∧
        c'.len = c.len ∧ (∀ k, c'.contains k = .ok true ↔ c.contains k = .ok true) ∧
        ∀ x, c.Resident x → (c.catalog.directory.item x).key ≠ key → c'.Resident x ∧
          c'.catalog.directory.item x = c.catalog.directory.item x ∧
          c'.store.read (c.catalog.directory.item x).offset
              (c.catalog.directory.item x).dataLength =
            c.store.read (c.catalog.directory.item x).offset
              (c.catalog.directory.item x).dataLength) ∧
      (Word.limit ≤ c.time + 1 → ∃ i, c.put key data = .error i ∧ i.fault = .overflow)) ∧
    (data.size ≤ c.layout.storeLength → ∃ s₀ length es s₁,
      c.forget key = .ok (true, s₀) ∧ roundToGranule data.size = some length ∧
      EvictsWhile (fun s => ¬ s.HasRoom length) s₀ es s₁ ∧ s₁.HasRoom length ∧
      (c.time + 1 < Word.limit → ∃ c', c.put key data = .ok ⟨.ok data, c', es.map .evicted⟩) ∧
      (Word.limit ≤ c.time + 1 → ∃ i, c.put key data = .error i ∧ i.fault = .overflow ∧
        i.len + es.length = s₀.len)) := by
  obtain ⟨lists, hsound⟩ := h.sound
  rw [hsound.resident_iff] at hid
  refine ⟨?within, ?longer⟩
  case within =>
    intro length hround hle
    have hfits : data.size ≤ c.layout.storeLength :=
      calc
        data.size ≤ length := (roundToGranule_eq_some hround).1
        _ ≤ (c.catalog.directory.item id).length := hle
        _ ≤ (c.catalog.directory.item id).extent.stop := Nat.le_add_left _ _
        _ ≤ c.store.length := hsound.stop_le hid
        _ = c.layout.storeLength := hsound.store_eq
    obtain ⟨_, hput, ⟨p⟩⟩ := hsound.put_course key hpos hround hfits
    refine ⟨fun htime => ?_, fun htime => hsound.put_overflow key htime hpos hfits⟩
    obtain ⟨c', lists', hinsert, hputs, hlen⟩ := p.insert_spec hsound htime hpos hround
    rw [p.victims_eq_nil hsound hid hkey hpos hround hle] at hinsert hputs hlen
    -- The put counts one item again for the one that it has dropped.
    obtain ⟨hthere, hdropped⟩ := forget_found p.forget_eq
    rw [hsound.found_of_item hid hkey p] at hthere hdropped
    exact ⟨c', hput.trans hinsert, hlen.trans hdropped, hputs.keeps_others hsound hthere⟩
  case longer =>
    intro hfits
    obtain ⟨length, hround, hput, ⟨p⟩⟩ := hsound.exists_put_course key hpos hfits
    have hfound := hsound.found_of_item hid hkey p
    have hvictims : p.victims = p.spaceVictims := by
      rw [Course.victims, p.entryVictims_eq_nil hsound hpos hround hfound, List.append_nil]
    have hwhile : EvictsWhile (fun s => ¬ s.HasRoom length) p.dropped p.spaceVictims p.roomy := by
      apply p.evicts_for_space.mono
      intro s hnone hroom
      exact hasRoom_iff.1 hroom hnone
    refine ⟨p.dropped, length, p.spaceVictims, p.roomy, hfound ▸ p.forget_eq, hround, hwhile,
      p.hasRoom_roomy, fun htime => ?_, fun htime => ?_⟩
    · obtain ⟨c', _, hinsert, _⟩ := p.insert_spec hsound htime hpos hround
      exact ⟨c', hvictims ▸ hput.trans hinsert⟩
    · obtain ⟨i, hinsert, hfault, hlen⟩ := p.insert_overflow hsound htime hpos hround
      exact ⟨i, hput.trans hinsert, hfault, hvictims ▸ hlen⟩

/-- Both entries are used, and the key 1 gets other bytes: nothing goes, and the key 2 is still
there. -/
theorem Reachable.replace_keeps_others_full :
    ∃ turns c c', smallest.run [.put 1 ⟨#[1]⟩, .put 2 ⟨#[1]⟩] = .ok (turns, c) ∧
      c.put 1 ⟨#[7, 8]⟩ = .ok ⟨.ok ⟨#[7, 8]⟩, c', []⟩ ∧ c'.len = 2 ∧
      c'.contains 2 = .ok true := by
  obtain ⟨turns, c, hrun, hlayout, htime, hlen, hchain, hkey, hlength, hthere⟩ : ∃ turns c,
      smallest.run [.put 1 ⟨#[1]⟩, .put 2 ⟨#[1]⟩] = .ok (turns, c) ∧
        c.layout = smallest.layout ∧ c.time = 2 ∧ c.len = 2 ∧
        c.catalog.directory.chain 0 = .ok [0, 1] ∧ (c.catalog.directory.item 0).key = 1 ∧
        (c.catalog.directory.item 0).length = 16 ∧ c.contains 2 = .ok true :=
    ⟨_, _, rfl, rfl, rfl, rfl, rfl, rfl, rfl, rfl⟩
  have hresident : c.Resident 0 := ⟨0, by rw [hlayout]; decide, [0, 1], hchain, by simp⟩
  obtain ⟨hwithin, _⟩ := Reachable.replace_keeps_others
    ⟨smallest, _, turns, fresh_smallest, hrun⟩ hresident hkey ⟨#[7, 8]⟩ (by decide)
  obtain ⟨c', hput, hlen', hcontains, _⟩ :=
    (hwithin 16 rfl (Nat.le_of_eq hlength.symm)).1 (by rw [htime]; decide)
  exact ⟨turns, c, c', hrun, hput, hlen'.trans hlen, (hcontains 2).2 hthere⟩

/-- At the last tick even an item that fits the place of the old one is not stored. -/
theorem Reachable.replace_stops_at_last_tick :
    ¬ ∀ (c : Cache) (id : Nat) (data : ByteArray) (length : Nat), c.Reachable → c.Resident id →
      0 < data.size → roundToGranule data.size = some length →
      length ≤ (c.catalog.directory.item id).length →
      ∃ c', c.put (c.catalog.directory.item id).key data = .ok ⟨.ok data, c', []⟩ := by
  intro hall
  obtain ⟨requests, turns, c, lists, hrun, hsound, ⟨id, hid, _, _⟩, hlayout, htime⟩ :=
    exists_last_tick
  obtain ⟨hpos, _, hround, _⟩ := hsound.laid.stored id hid
  -- No item has less than one granule.
  have hgranule : 16 ≤ (c.catalog.directory.item id).length := by
    obtain ⟨hle, _, hdvd⟩ := roundToGranule_eq_some hround
    exact Nat.le_of_dvd (Nat.lt_of_lt_of_le hpos hle) hdvd
  obtain ⟨c', hput⟩ := hall c id ⟨#[1]⟩ 16 ⟨smallest, requests, turns, fresh_smallest, hrun⟩
    (hsound.resident_iff.2 hid) (by decide) rfl hgranule
  have hfits : ByteArray.size ⟨#[1]⟩ ≤ c.layout.storeLength := by
    rw [hlayout]
    decide
  obtain ⟨i, hstop, _⟩ :=
    hsound.put_overflow (c.catalog.directory.item id).key htime (by decide) hfits
  rw [hstop] at hput
  cases hput

end Cache
end BlockCache

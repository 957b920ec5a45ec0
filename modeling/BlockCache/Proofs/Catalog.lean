import BlockCache.Proofs.Catalog.Apportioned

/-!
# Catalog — the directory and the free space agree

`k.Laid lists loose held` is the invariant of a catalog whose chains are the lists `lists`. In the
middle of an operation an entry may be on no chain (`loose`) and space may belong to no item yet
(`held`); between operations both are empty. Every operation of the catalog is described by what it
does to the lists, to `loose` and to `held`.

Part of the invariant is how entries and bytes are apportioned (`Laid.apportioned`); the rest is
about single items, and holds of whatever items are left of those that there were (`Laid.inherit`).
-/

namespace BlockCache

open Extent

/-- What the entry of an item holds: the bytes of the item, and no more whole granules than it takes
to hold them, inside the store. -/
structure Entry.Stored (storeLength : Nat) (e : Entry) : Prop where
  positive : 0 < e.dataLength
  dataLength_le : e.dataLength ≤ e.length
  rounded : roundToGranule e.dataLength = some e.length
  whole : e.extent.Whole storeLength

namespace Catalog

structure Laid (k : Catalog) (lists : Nat → List Nat) (loose : List Nat) (held : List Extent) :
    Prop extends Sized k where
  /-- The chains end, and no two of them share an entry. -/
  spells : k.directory.Spells lists
  /-- Every entry is on a chain or loose, exactly once. -/
  once : ∀ id, (rows lists (k.directory.binCount + 1)).count id + loose.count id =
    if id < k.directory.capacity then 1 else 0
  home : ∀ b < k.directory.binCount, ∀ id ∈ lists b,
    k.directory.binOf (k.directory.item id).key = b
  keys : ∀ id ∈ rows lists k.directory.binCount, ∀ id' ∈ rows lists k.directory.binCount,
    (k.directory.item id).key = (k.directory.item id').key → id = id'
  stored : ∀ id ∈ rows lists k.directory.binCount,
    (k.directory.item id).Stored k.free.storeLength
  tidy : k.free.Tidy
  /-- Every byte of the store belongs to an item, is held or is free, exactly once. -/
  tiled : ∀ x, itemCoverage k.directory lists x + coverage held x + coverage k.free.blocks x =
    if x < k.free.storeLength then 1 else 0

namespace Laid

variable {k k' : Catalog} {lists : Nat → List Nat} {loose : List Nat} {held : List Extent}
  {b id : Nat}

theorem binOf_lt (h : k.Laid lists loose held) (key : UInt32) :
    k.directory.binOf key < k.directory.binCount :=
  Nat.mod_lt _ h.bins_pos

theorem mem_row (h : k.Laid lists loose held) (hid : id ∈ rows lists k.directory.binCount) :
    id ∈ lists (k.directory.binOf (k.directory.item id).key) := by
  rcases mem_rows.1 hid with ⟨b, hb, hmem⟩
  rw [h.home b hb id hmem]
  exact hmem

theorem apportioned (h : k.Laid lists loose held) : k.Apportioned lists loose held where
  toSized := h.toSized
  spells := h.spells
  once := h.once
  whole := fun id hid => (h.stored id hid).whole
  tidy := h.tidy
  tiled := h.tiled

/-- What is said about each item stays true when items are lost or used. -/
theorem inherit {lists' : Nat → List Nat} {loose' : List Nat} {held' : List Extent}
    (h : k.Laid lists loose held) (h' : k'.Apportioned lists' loose' held')
    (hbins : k'.directory.binCount = k.directory.binCount)
    (hlength : k'.free.storeLength = k.free.storeLength)
    (hsub : ∀ b < k.directory.binCount, ∀ id ∈ lists' b, id ∈ lists b)
    (hitem : ∀ id, ∃ t, k'.directory.item id = { k.directory.item id with time := t }) :
    k'.Laid lists' loose' held' := by
  have hkey : ∀ id, (k'.directory.item id).key = (k.directory.item id).key := fun id => by
    obtain ⟨t, ht⟩ := hitem id
    rw [ht]
  have hrow : ∀ id ∈ rows lists' k'.directory.binCount, id ∈ rows lists k.directory.binCount := by
    intro id hid
    rw [hbins] at hid
    obtain ⟨b, hb, hmem⟩ := mem_rows.1 hid
    exact mem_rows.2 ⟨b, hb, hsub b hb id hmem⟩
  refine {
    toSized := h'.toSized
    spells := h'.spells
    once := h'.once
    home := ?home
    keys := ?keys
    stored := ?stored
    tidy := h'.tidy
    tiled := h'.tiled }
  case home =>
    intro b hb id hid
    rw [hbins] at hb
    rw [Directory.binOf_congr hbins, hkey]
    exact h.home b hb id (hsub b hb id hid)
  case keys =>
    intro id hid id' hid' heq
    rw [hkey, hkey] at heq
    exact h.keys id (hrow id hid) id' (hrow id' hid') heq
  case stored =>
    intro id hid
    obtain ⟨t, ht⟩ := hitem id
    obtain ⟨hpos, hle, hround, hwhole⟩ := h.stored id (hrow id hid)
    rw [ht, hlength]
    exact ⟨hpos, hle, hround, hwhole⟩

/-- Held space has no byte of an item. -/
theorem apart_held (h : k.Laid lists loose held) (hid : id ∈ rows lists k.directory.binCount)
    {e : Extent} (he : e ∈ held) {x : Nat} (hx : x ∈ e) : x ∉ (k.directory.item id).extent := by
  intro hitem
  -- The byte would be counted once for the item and once for what is held.
  have hone := itemCoverage_pos hid hitem
  have htwo : 0 < coverage held x := coverage_pos_iff.2 ⟨e, he, hx⟩
  have htiled := h.tiled x
  split_ifs at htiled <;> omega

/-- Items that share a byte are the same. -/
theorem eq_of_mem_extents (h : k.Laid lists loose held) {id' : Nat}
    (hid : id ∈ rows lists k.directory.binCount) (hid' : id' ∈ rows lists k.directory.binCount)
    {x : Nat} (hx : x ∈ (k.directory.item id).extent)
    (hx' : x ∈ (k.directory.item id').extent) : id = id' := by
  by_contra hne
  -- The byte would be counted once for each of the two.
  have hsub : [id, id'] ⊆ (rows lists k.directory.binCount).filter fun id =>
      decide (x ∈ (k.directory.item id).extent) := by
    simp [hid, hid', hx, hx']
  have htwo := (List.Nodup.subperm (by simp [hne]) hsub).length_le
  rw [← List.countP_eq_length_filter] at htwo
  have htiled := h.tiled x
  rw [itemCoverage] at htiled
  simp only [List.length_cons, List.length_nil] at htwo
  split_ifs at htiled <;> omega

/-- The free bytes are those of the store that no item has, if nothing is held. -/
theorem mem_bytes_iff (h : k.Laid lists loose []) {x : Nat} (hx : x < k.free.storeLength) :
    x ∈ k.free.bytes ↔
      ∀ id ∈ rows lists k.directory.binCount, x ∉ (k.directory.item id).extent := by
  have hnone : itemCoverage k.directory lists x = 0 ↔
      ∀ id ∈ rows lists k.directory.binCount, x ∉ (k.directory.item id).extent := by
    simp [itemCoverage, List.countP_eq_zero]
  have htiled := h.tiled x
  rw [if_pos hx, coverage_nil] at htiled
  rw [FreeList.mem_bytes, ← hnone]
  omega

/-- A free block goes up to the end of the store or to an item. -/
theorem block_stop (h : k.Laid lists loose []) {e : Extent} (he : e ∈ k.free.blocks) :
    e.stop = k.free.storeLength ∨
      ∃ id ∈ rows lists k.directory.binCount, (k.directory.item id).extent.offset = e.stop := by
  have hrun := (h.tidy.runsOf.mem_iff e).1 he
  have hnonempty := hrun.nonempty
  rcases Nat.lt_or_eq_of_le (h.tidy.whole e he).stop_le with hlt | heq
  · -- The byte behind the block belongs to an item, and the last one of the block does not.
    have hafter := hrun.noneAfter
    rw [h.mem_bytes_iff hlt] at hafter
    push Not at hafter
    obtain ⟨id, hid, hmem⟩ := hafter
    have hlast := hrun.inside (e.stop - 1) (by simp only [mem_iff, stop]; omega)
    rw [h.mem_bytes_iff (by omega)] at hlast
    have hout := hlast id hid
    refine Or.inr ⟨id, hid, ?_⟩
    simp only [mem_iff, stop] at hmem hout ⊢
    omega
  · exact Or.inl heq

/-- A free block begins with the store or behind an item. -/
theorem block_offset (h : k.Laid lists loose []) {e : Extent} (he : e ∈ k.free.blocks) :
    e.offset = 0 ∨
      ∃ id ∈ rows lists k.directory.binCount, (k.directory.item id).extent.stop = e.offset := by
  have hrun := (h.tidy.runsOf.mem_iff e).1 he
  have hfirst := hrun.inside e.offset (offset_mem hrun.nonempty)
  have hlt : e.offset < k.free.storeLength :=
    Nat.lt_of_lt_of_le (offset_mem hrun.nonempty).2 (h.tidy.whole e he).stop_le
  rcases Nat.eq_zero_or_pos e.offset with hzero | hpos
  · exact Or.inl hzero
  · -- The byte in front of the block belongs to an item, and the first one of the block does not.
    have hbefore := hrun.noneBefore (e.offset - 1) (by omega)
    rw [h.mem_bytes_iff (by omega)] at hbefore
    push Not at hbefore
    obtain ⟨id, hid, hmem⟩ := hbefore
    rw [h.mem_bytes_iff hlt] at hfirst
    have hout := hfirst id hid
    refine Or.inr ⟨id, hid, ?_⟩
    simp only [mem_iff, stop] at hmem hout ⊢
    omega

/-- The bytes of an item can be given back. -/
theorem returnable (h : k.Laid lists loose held) (hid : id ∈ rows lists k.directory.binCount) :
    k.free.Returnable (k.directory.item id).extent :=
  h.apportioned.returnable hid

/-- What is said about each item stays true when items are lost or used, as long as entries and
bytes are still accounted for. -/
theorem restrict {d : Directory} {f : FreeList} {lists' : Nat → List Nat} {loose' : List Nat}
    {held' : List Extent} (h : k.Laid lists loose held)
    (hbins : d.binCount = k.directory.binCount)
    (hcapacity : d.capacity = k.directory.capacity)
    (hlength : f.storeLength = k.free.storeLength)
    (hspells : d.Spells lists') (htidy : f.Tidy)
    (hsub : ∀ b < k.directory.binCount, ∀ id ∈ lists' b, id ∈ lists b)
    (hitem : ∀ id, ∃ t, d.item id = { k.directory.item id with time := t })
    (honce : ∀ id, (rows lists' (k.directory.binCount + 1)).count id + loose'.count id =
      (rows lists (k.directory.binCount + 1)).count id + loose.count id)
    (htiled : ∀ x, itemCoverage k.directory lists' x + coverage held' x + coverage f.blocks x =
      itemCoverage k.directory lists x + coverage held x + coverage k.free.blocks x) :
    Laid ⟨d, f⟩ lists' loose' held' := by
  have hextent : ∀ id, (d.item id).extent = (k.directory.item id).extent := fun id => by
    obtain ⟨t, ht⟩ := hitem id
    rw [ht]
    rfl
  have h' := h.apportioned.restrict hbins hcapacity hlength hspells htidy hsub hextent honce htiled
  exact h.inherit h' hbins hlength hsub hitem

/-! ## Finding -/

theorem find_found (h : k.Laid lists loose held) (hid : id ∈ rows lists k.directory.binCount) :
    ∃ front back,
      lists (k.directory.binOf (k.directory.item id).key) = front ++ id :: back ∧
      k.directory.find (k.directory.item id).key =
        .ok (some ⟨k.directory.binOf (k.directory.item id).key, front.getLast?, id⟩) := by
  obtain ⟨front, back, hlist⟩ := List.append_of_mem (h.mem_row hid)
  have hbin := h.binOf_lt (k.directory.item id).key
  have hnodup := h.spells.nodup (Nat.le_of_lt hbin)
  rw [hlist, List.nodup_append] at hnodup
  refine ⟨front, back, hlist, ?_⟩
  refine h.spells.find_found (Nat.le_of_lt hbin) hlist (fun x hx hkey => ?_) rfl
  -- An entry in front of `id` with the same key would be `id`.
  have hrow : x ∈ rows lists k.directory.binCount :=
    mem_rows.2 ⟨_, hbin, hlist ▸ List.mem_append_left _ hx⟩
  exact hnodup.2.2 x hx id (List.mem_cons_self ..) (h.keys x hrow id hid hkey)

theorem find_missed (h : k.Laid lists loose held) {key : UInt32}
    (hnone : ∀ id ∈ rows lists k.directory.binCount, (k.directory.item id).key ≠ key) :
    k.directory.find key = .ok none := by
  have hbin := h.binOf_lt key
  exact h.spells.find_missed (Nat.le_of_lt hbin) fun x hx => hnone x (mem_rows.2 ⟨_, hbin, hx⟩)

/-! ## Dropping -/

theorem drop_spec (h : k.Laid lists loose held) (hb : b < k.directory.binCount)
    {front back : List Nat} (hlist : lists b = front ++ id :: back) :
    ∃ k', k.drop ⟨b, front.getLast?, id⟩ = .ok k' ∧
      k'.Laid (moveToSpare lists k.directory.binCount b id) loose held ∧
      k.directory.SameItems k'.directory ∧ k'.free.storeLength = k.free.storeLength := by
  obtain ⟨k', hdrop, h', hsame, hlength⟩ := h.apportioned.drop_spec hb hlist
  have hmem : id ∈ lists b := by simp [hlist]
  refine ⟨k', hdrop, h.inherit h' hsame.binCount_eq hlength ?hsub ?hitem, hsame, hlength⟩
  case hsub =>
    intro b' hb' x hx
    rw [h.spells.moveToSpare_of_lt hb hmem hb'] at hx
    exact List.mem_of_mem_filter hx
  case hitem => exact fun x => ⟨(k.directory.item x).time, by rw [hsame.item_eq]⟩

/-! ## Claiming and linking -/

theorem claim_nil (h : k.Laid lists loose held) (hnil : lists k.directory.binCount = []) :
    k.directory.claim = .ok (none, k.directory) :=
  h.spells.claim_nil hnil

theorem claim_cons (h : k.Laid lists loose held) {rest : List Nat}
    (hlist : lists k.directory.binCount = id :: rest) :
    ∃ d', k.directory.claim = .ok (some id, d') ∧
      Laid { k with directory := d' } (Function.update lists k.directory.binCount rest)
        (id :: loose) held ∧
      k.directory.SameItems d' := by
  obtain ⟨d', hclaim, hspells, hsame⟩ := h.spells.claim_cons hlist
  have hrows : rows (Function.update lists k.directory.binCount rest) k.directory.binCount =
      rows lists k.directory.binCount := rows_update_of_le (Nat.le_refl _)
  refine ⟨d', hclaim, ?_, hsame⟩
  refine h.restrict hsame.binCount_eq hsame.capacity_eq rfl hspells h.tidy ?hsub ?hitem ?honce
    ?htiled
  case hsub =>
    intro b hb x hx
    rwa [Function.update_of_ne (Nat.ne_of_lt hb)] at hx
  case hitem => exact fun x => ⟨(k.directory.item x).time, by rw [hsame.item_eq]⟩
  case honce =>
    -- The entry that leaves the spare chain is loose.
    intro x
    rw [rows_succ, rows_succ, List.count_append, List.count_append, hrows, Function.update_self,
      hlist, List.count_cons, List.count_cons]
    omega
  case htiled =>
    intro x
    rw [itemCoverage, itemCoverage, hrows]

theorem unlisted_of_loose (h : k.Laid lists (id :: loose) held) :
    id < k.directory.capacity ∧ k.directory.Unlisted lists id := by
  have honce := h.once id
  rw [List.count_cons_self] at honce
  split_ifs at honce with hid
  · refine ⟨hid, fun c hc hmem => ?_⟩
    have hpos : 0 < (rows lists (k.directory.binCount + 1)).count id :=
      List.count_pos_iff.2 (mem_rows.2 ⟨c, Nat.lt_succ_of_le hc, hmem⟩)
    omega

theorem not_mem_rows_of_loose (h : k.Laid lists (id :: loose) held) :
    id ∉ rows lists k.directory.binCount := by
  intro hid
  rcases mem_rows.1 hid with ⟨b, hb, hmem⟩
  exact h.unlisted_of_loose.2 b (Nat.le_of_lt hb) hmem

/-- A new item covers its own bytes, and every other item the bytes that it did. -/
theorem itemCoverage_pushTo {d d' : Directory} {e : Entry} (hb : b < d.binCount)
    (hbins : d'.binCount = d.binCount) (hnew : id ∉ rows lists d.binCount)
    (hitems : d'.item = Function.update d.item id e) (x : Nat) :
    itemCoverage d' (pushTo lists b id) x =
      itemCoverage d lists x + if x ∈ e.extent then 1 else 0 := by
  have hsum := countP_rows_pushTo lists id (fun y => decide (x ∈ (d'.item y).extent)) hb
  have hold : (rows lists d.binCount).countP (fun y => decide (x ∈ (d'.item y).extent)) =
      itemCoverage d lists x := by
    apply List.countP_congr
    intro y hy
    have hne : y ≠ id := fun heq => hnew (heq ▸ hy)
    rw [hitems, Function.update_of_ne hne]
  have hself : d'.item id = e := by rw [hitems, Function.update_self]
  calc
    itemCoverage d' (pushTo lists b id) x =
        (rows (pushTo lists b id) d.binCount).countP
          (fun y => decide (x ∈ (d'.item y).extent)) := by
      rw [itemCoverage, hbins]
    _ = itemCoverage d lists x + if x ∈ e.extent then 1 else 0 := by
      simp only [hsum, hold, List.countP_cons, List.countP_nil, hself, decide_eq_true_eq,
        Nat.zero_add]

/-- A loose entry that now holds what `e` says is an item, once it is the last of its bin. -/
theorem push {d : Directory} {e : Entry} (h : k.Laid lists (id :: loose) (e.extent :: held))
    (hbins : d.binCount = k.directory.binCount)
    (hcapacity : d.capacity = k.directory.capacity)
    (hitems : d.item = Function.update k.directory.item id e)
    (hspells : d.Spells (pushTo lists (k.directory.binOf e.key) id))
    (hstored : e.Stored k.free.storeLength)
    (hfresh : ∀ x ∈ rows lists k.directory.binCount, (k.directory.item x).key ≠ e.key) :
    Laid ⟨d, k.free⟩ (pushTo lists (k.directory.binOf e.key) id) loose held := by
  have hbin := h.binOf_lt e.key
  have hself : d.item id = e := by rw [hitems, Function.update_self]
  have hother : ∀ x ∈ rows lists k.directory.binCount, d.item x = k.directory.item x := by
    intro x hx
    have hne : x ≠ id := by
      rintro rfl
      exact h.not_mem_rows_of_loose hx
    rw [hitems, Function.update_of_ne hne]
  refine {
    toSized := h.toSized.congr hbins hcapacity rfl
    spells := hspells
    once := ?once
    home := ?home
    keys := ?keys
    stored := ?stored
    tidy := h.tidy
    tiled := ?tiled } <;> dsimp only
  case once =>
    -- The entry that was loose is in its bin.
    intro x
    have honce := h.once x
    rw [List.count_cons] at honce
    rw [hbins, hcapacity, count_rows_pushTo (Nat.lt_add_one_of_lt hbin), ← honce]
    omega
  case home =>
    intro b hb x hx
    rw [hbins] at hb
    rw [Directory.binOf_congr hbins]
    rcases mem_pushTo.1 hx with hx | ⟨rfl, rfl⟩
    · rw [hother x (mem_rows.2 ⟨b, hb, hx⟩)]
      exact h.home b hb x hx
    · rw [hself]
  case keys =>
    rw [hbins]
    intro x hx y hy hkey
    rw [mem_rows_pushTo hbin] at hx hy
    rcases hx with hx | rfl
    · rcases hy with hy | rfl
      · rw [hother x hx, hother y hy] at hkey
        exact h.keys x hx y hy hkey
      · -- No item had the key of the new one.
        rw [hother x hx, hself] at hkey
        exact absurd hkey (hfresh x hx)
    · rcases hy with hy | rfl
      · rw [hself, hother y hy] at hkey
        exact absurd hkey.symm (hfresh y hy)
      · rfl
  case stored =>
    rw [hbins]
    intro x hx
    rcases (mem_rows_pushTo hbin).1 hx with hx | rfl
    · rw [hother x hx]
      exact h.stored x hx
    · rw [hself]
      exact hstored
  case tiled =>
    -- The held bytes go over to the new item.
    intro x
    have htiled := h.tiled x
    rw [coverage_cons] at htiled
    rw [itemCoverage_pushTo hbin hbins h.not_mem_rows_of_loose hitems, ← htiled]
    omega

/-- A loose entry is filled and becomes the last of the bin of its key. -/
theorem link_spec {e : Entry} (h : k.Laid lists (id :: loose) (e.extent :: held))
    (hnext : e.next = none) (hstored : e.Stored k.free.storeLength)
    (hfresh : ∀ x ∈ rows lists k.directory.binCount, (k.directory.item x).key ≠ e.key) :
    ∃ k', k.link id e = .ok k' ∧
      k'.Laid (pushTo lists (k.directory.binOf e.key) id) loose held ∧
      k'.directory.binCount = k.directory.binCount ∧
      k'.directory.capacity = k.directory.capacity ∧
      k'.directory.item = Function.update k.directory.item id e ∧ k'.free = k.free := by
  obtain ⟨hid, hunlisted⟩ := h.unlisted_of_loose
  obtain ⟨d₁, hfill, hspells₁, hbins₁, hcapacity₁, hitems₁⟩ :=
    h.spells.fill_spec hid hunlisted hnext
  have hbin : k.directory.binOf e.key ≤ d₁.binCount := hbins₁ ▸ Nat.le_of_lt (h.binOf_lt e.key)
  have hhome := Directory.binOf_congr hbins₁ e.key
  obtain ⟨d', happend, hspells, hsame⟩ :=
    hspells₁.append_spec hbin (hcapacity₁ ▸ hid) fun c hc => hunlisted c (hbins₁ ▸ hc)
  have hbins := hsame.binCount_eq.trans hbins₁
  have hcapacity := hsame.capacity_eq.trans hcapacity₁
  have hitems := hsame.item_eq.trans hitems₁
  refine ⟨⟨d', k.free⟩, ?_, ?_, hbins, hcapacity, hitems, rfl⟩
  · simp only [link, hfill, ok_bind, hhome, happend]
    rfl
  · exact h.push hbins hcapacity hitems hspells hstored hfresh

/-! ## Stamping -/

/-- What an item holds does not depend on when it was used last. -/
theorem stamp_spec (h : k.Laid lists loose held) (hid : id < k.directory.capacity) (now : Nat) :
    ∃ d', k.directory.adjust id (fun e => { e with time := now }) = .ok d' ∧
      Laid { k with directory := d' } lists loose held ∧
      d'.binCount = k.directory.binCount ∧ d'.capacity = k.directory.capacity ∧
      d'.item = Function.update k.directory.item id
        { k.directory.item id with time := now } := by
  obtain ⟨d', hadjust, hspells, hbins, hcapacity, hitems⟩ := h.spells.stamp_spec hid now
  refine ⟨d', hadjust, ?_, hbins, hcapacity, hitems⟩
  refine h.restrict hbins hcapacity rfl hspells h.tidy ?hsub ?hitem ?honce ?htiled
  case hsub => exact fun _ _ _ hx => hx
  case hitem => exact Directory.item_of_stamped hitems
  case honce => exact fun _ => rfl
  case htiled => exact fun _ => rfl

/-! ## Space -/

theorem allocate_spec {f : FreeList} {offset length : Nat} (h : k.Laid lists loose held)
    (hdvd : granule ∣ length) (htake : k.free.allocate length = some (offset, f)) :
    Laid { k with free := f } lists loose (⟨offset, length⟩ :: held) := by
  have hlength := FreeList.allocate_storeLength htake
  have htidy := h.tidy.allocate hdvd htake
  refine h.restrict rfl rfl hlength h.spells htidy ?hsub ?hitem ?honce ?htiled
  case hsub => exact fun _ _ _ hx => hx
  case hitem => exact fun x => ⟨(k.directory.item x).time, rfl⟩
  case honce => exact fun _ => rfl
  case htiled =>
    -- The bytes that are taken go over to the held space.
    intro x
    have hmoved := FreeList.coverage_allocate htake x
    rw [coverage_cons]
    omega

end Laid

/-! ## Creating and clearing -/

/-- A catalog without items: every entry is spare and the whole store is free. -/
theorem laid_spareLists {d : Directory} {f : FreeList} {bins entries : Nat} (h : Sized ⟨d, f⟩)
    (hd : d = ⟨Array.replicate bins none, Directory.firstOf entries, Directory.threaded entries⟩) :
    d.binCount = bins ∧ d.capacity = entries ∧
      Laid ⟨d, f.reset⟩ (Directory.spareLists bins entries) [] [] := by
  have hcount : d.binCount = bins := by
    rw [hd]
    exact Array.size_replicate
  have hcapacity : d.capacity = entries := by
    rw [hd]
    exact Directory.capacity_spare
  have hrows : rows (Directory.spareLists bins entries) bins = [] := Directory.rows_spareLists
  refine ⟨hcount, hcapacity, {
    toSized := h.congr rfl rfl rfl
    spells := Directory.spells_spareLists hd
    once := ?once
    home := ?home
    keys := ?keys
    stored := ?stored
    tidy := FreeList.tidy_reset h.store_pos h.store_dvd
    tiled := ?tiled }⟩ <;> dsimp only
  case once =>
    intro id
    have hspare : Directory.spareLists bins entries bins = List.range entries := if_pos rfl
    rw [hcount, hcapacity, rows_succ, hrows, List.nil_append, hspare, List.count_nil,
      List.count_range]
    rfl
  case home =>
    intro b hb id hid
    rw [hcount] at hb
    have hnil : Directory.spareLists bins entries b = [] := if_neg (Nat.ne_of_lt hb)
    rw [hnil] at hid
    cases hid
  case keys =>
    rw [hcount, hrows]
    intro id hid
    cases hid
  case stored =>
    rw [hcount, hrows]
    intro id hid
    cases hid
  case tiled =>
    intro x
    rw [itemCoverage, hcount, hrows, FreeList.coverage_reset, List.countP_nil, coverage_nil,
      Nat.zero_add]
    rfl

theorem clear_spec {k : Catalog} (h : k.Sized) :
    k.clear.directory.binCount = k.directory.binCount ∧
      k.clear.directory.capacity = k.directory.capacity ∧
      k.clear.free.storeLength = k.free.storeLength ∧
      k.clear.Laid (Directory.spareLists k.directory.binCount k.directory.capacity) [] [] := by
  have hbins : k.directory.clear.binCount = k.directory.binCount := Array.size_replicate
  have hcapacity : k.directory.clear.capacity = k.directory.capacity := Directory.capacity_spare
  have hsized : Sized ⟨k.directory.clear, k.free⟩ := h.congr hbins hcapacity rfl
  exact ⟨hbins, hcapacity, rfl, (laid_spareLists hsized rfl).2.2⟩

theorem create_spec {entries bins storeLength : Nat} {k : Catalog} (hentries : 0 < entries)
    (hbins : 0 < bins) (h : create entries bins storeLength = .ok k) :
    k.directory.binCount = bins ∧ k.directory.capacity = entries ∧
      k.free.storeLength = storeLength ∧ k.Laid (Directory.spareLists bins entries) [] [] := by
  obtain ⟨d, hdirectory, h⟩ := eq_ok_of_bind h
  obtain ⟨f, hfree, h⟩ := eq_ok_of_bind h
  cases h
  obtain ⟨hd, hlt⟩ := Directory.create_eq_ok hdirectory
  obtain ⟨rfl, hpos, hdvd, hgranted⟩ := FreeList.create_eq_ok (eq_ok_of_mapError hfree)
  let f : FreeList := ⟨[⟨0, storeLength⟩], storeLength⟩
  have hcount : d.binCount = bins := by
    rw [hd]
    exact Array.size_replicate
  have hcapacity : d.capacity = entries := by
    rw [hd]
    exact Directory.capacity_spare
  have hsized : Sized ⟨d, f⟩ :=
    ⟨hcount ▸ hbins, hcapacity ▸ hentries, hcapacity ▸ hlt, hpos,
      FreeList.lt_limit_of_reservable hgranted, hdvd⟩
  exact ⟨hcount, hcapacity, rfl, (laid_spareLists hsized hd).2.2⟩

end Catalog
end BlockCache

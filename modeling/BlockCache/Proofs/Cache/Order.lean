import BlockCache.Proofs.Cache.Trace
import Mathlib.Data.List.Induction
import Mathlib.Data.List.Pairwise

/-!
# Order — a bin lists its keys as they were put

* `lastTurn p turns` — the position of the last turn that satisfies `p`;
* `lastPut turns k` — the position of the last turn that stored an item under `k`;
* `InPutOrder turns keys` — these positions ascend along `keys`.

Every bin of a cache is in put order at the end of every run (`bins_in_put_order`): whatever is
looked up, evicted or replaced in between, a put takes its own key to the end of its bin and no key
past another.
-/

namespace BlockCache

/-! ## When a key was put last -/

/-- An item is stored under `k`. -/
def Turn.storesKey (k : UInt32) (t : Turn) : Bool :=
  match t.request, t.answer with
  | .put key _, .stored (.ok _) => key == k
  | _, _ => false

/-- The position of the last turn that satisfies `p`. -/
def lastTurn (p : Turn → Bool) (turns : List Turn) : Option Nat :=
  turns.zipIdx.foldl (fun last (t, i) => if p t then some i else last) none

/-- The position of the last turn that stored an item under `k`. -/
def lastPut (turns : List Turn) (k : UInt32) : Option Nat :=
  lastTurn (Turn.storesKey k) turns

variable {turns : List Turn} {t : Turn} {p q : Turn → Bool} {key k : UInt32}
  {keys kept : List UInt32} {i : Nat}

theorem lastTurn_snoc :
    lastTurn p (turns ++ [t]) = if p t then some turns.length else lastTurn p turns := by
  simp [lastTurn, List.zipIdx_append]

theorem lastTurn_lt (h : lastTurn p turns = some i) : i < turns.length := by
  induction turns using List.reverseRecOn with
  | nil => cases h
  | append_singleton turns t ih =>
      rw [lastTurn_snoc] at h
      rw [List.length_append, List.length_singleton]
      split_ifs at h with hlast
      · cases h
        exact Nat.lt_succ_self _
      · exact Nat.lt_succ_of_lt (ih h)

theorem lastTurn_congr (h : ∀ t ∈ turns, p t = q t) : lastTurn p turns = lastTurn q turns := by
  induction turns using List.reverseRecOn with
  | nil => rfl
  | append_singleton turns t ih =>
      rw [List.forall_mem_append, List.forall_mem_singleton] at h
      rw [lastTurn_snoc, lastTurn_snoc, h.2, ih h.1]

theorem lastPut_snoc :
    lastPut (turns ++ [t]) k = if t.storesKey k then some turns.length else lastPut turns k :=
  lastTurn_snoc

theorem lastPut_lt (h : lastPut turns k = some i) : i < turns.length :=
  lastTurn_lt h

/-- The last put of `k` comes before the last put of `k'`. -/
def PutBefore (turns : List Turn) (k k' : UInt32) : Prop :=
  ∃ i j, lastPut turns k = some i ∧ lastPut turns k' = some j ∧ i < j

/-- Every key was put, and put before all keys that are behind it. -/
structure InPutOrder (turns : List Turn) (keys : List UInt32) : Prop where
  put : ∀ k ∈ keys, ∃ i, lastPut turns k = some i
  ascending : keys.Pairwise (PutBefore turns)

namespace InPutOrder

theorem nil (turns : List Turn) : InPutOrder turns [] :=
  ⟨by simp, List.Pairwise.nil⟩

theorem sublist (h : InPutOrder turns keys) (hkept : kept.Sublist keys) : InPutOrder turns kept :=
  ⟨fun k hk => h.put k (hkept.subset hk), h.ascending.sublist hkept⟩

theorem nodup (h : InPutOrder turns keys) : keys.Nodup := by
  refine h.ascending.imp ?_
  rintro k _ ⟨i, j, hi, hj, hlt⟩ rfl
  rw [hi] at hj
  cases hj
  exact Nat.lt_irrefl i hlt

/-- A turn changes nothing for keys that it does not store. -/
theorem snoc (h : InPutOrder turns keys) (hother : ∀ k ∈ keys, t.storesKey k = false) :
    InPutOrder (turns ++ [t]) keys := by
  have hsame : ∀ k ∈ keys, lastPut (turns ++ [t]) k = lastPut turns k := by
    intro k hk
    rw [lastPut_snoc, hother k hk]
    rfl
  constructor
  · intro k hk
    rw [hsame k hk]
    exact h.put k hk
  · refine h.ascending.imp_of_mem fun {k k'} hk hk' hbefore => ?_
    rw [PutBefore, hsame k hk, hsame k' hk']
    exact hbefore

/-- A key that is stored now comes behind all others. -/
theorem push (h : InPutOrder turns keys) (hstores : t.storesKey key = true)
    (hother : ∀ k ∈ keys, t.storesKey k = false) : InPutOrder (turns ++ [t]) (keys ++ [key]) := by
  have hkey : lastPut (turns ++ [t]) key = some turns.length := by
    rw [lastPut_snoc, if_pos hstores]
  have hkeys := h.snoc hother
  constructor
  · exact List.forall_mem_append.2 ⟨hkeys.put, List.forall_mem_singleton.2 ⟨_, hkey⟩⟩
  · refine List.pairwise_append.2
      ⟨hkeys.ascending, List.pairwise_singleton _ _, fun k hk k' hk' => ?_⟩
    rw [List.mem_singleton.1 hk']
    obtain ⟨i, hi⟩ := h.put k hk
    refine ⟨i, turns.length, ?_, hkey, lastPut_lt hi⟩
    rw [lastPut_snoc, hother k hk]
    exact hi

end InPutOrder

namespace Cache

variable {c c' : Cache} {lists lists' : Nat → List Nat} {b : Nat}

/-- The keys of some items. -/
def keysOf (c : Cache) (ids : List Nat) : List UInt32 :=
  ids.map fun id => (c.catalog.directory.item id).key

/-! ## What a turn does to a bin -/

/-- The survivors keep their keys and their order, and the new key comes last in its bin. -/
theorem Puts.keysOf_eq {data : ByteArray} {es : List Eviction} {id : Nat} {extent : Extent}
    (h : c.Puts lists key data es id extent c' lists') (hb : b < c.catalog.directory.binCount) :
    c'.keysOf (lists' b) = c.keysOf ((lists b).filter (c.Survives key es)) ++
      if b = c.catalog.directory.binOf key then [key] else [] := by
  rw [h.bins b hb, keysOf, List.map_append]
  congr 1
  · refine List.map_congr_left fun x hx => ?_
    rw [List.mem_filter, decide_eq_true_eq] at hx
    rw [h.item_of_survives (mem_rows.2 ⟨b, hb, hx.1⟩) hx.2]
  · split_ifs
    · rw [List.map_singleton, h.item_self]
      rfl
    · rfl

theorem Step.inPutOrder (h : Step c lists t c' lists') (hc : c.Sound lists [] [])
    (hb : b < c.layout.binCount) (horder : InPutOrder turns (c.keysOf (lists b))) :
    InPutOrder (turns ++ [t]) (c'.keysOf (lists' b)) := by
  cases h with
  | @stored key data es id extent _ _ hputs =>
      rw [hputs.keysOf_eq (hc.bins_eq ▸ hb)]
      have hkept := horder.sublist
        (List.Sublist.map (fun id => (c.catalog.directory.item id).key)
          (List.filter_sublist (p := c.Survives key es) (l := lists b)))
      have hother : ∀ k ∈ c.keysOf ((lists b).filter (c.Survives key es)),
          Turn.storesKey k ⟨.put key data, .stored (.ok data), es.map .evicted⟩ = false := by
        intro k hk
        obtain ⟨x, hx, rfl⟩ := List.mem_map.1 hk
        rw [List.mem_filter, decide_eq_true_eq] at hx
        -- An older item under `key` does not survive.
        exact beq_false_of_ne (Ne.symm hx.2.1)
      split_ifs with hhome
      · exact hkept.push (beq_self_eq_true key) hother
      · rw [List.append_nil]
        exact hkept.snoc hother
  | rejected _ => exact horder.snoc fun _ _ => rfl
  | @hit _ _ id d' _ _ _ _ hitems _ =>
      -- A lookup writes a time stamp to the item and leaves its key and its link.
      have hkeys : ∀ x, (d'.item x).key = (c.catalog.directory.item x).key := by
        intro x
        obtain ⟨time, hx⟩ := Directory.item_of_stamped hitems x
        rw [hx]
      have hsame : c.keysOf (lists b) = (c.afterHit d').keysOf (lists b) :=
        List.map_congr_left fun x _ => (hkeys x).symm
      rw [← hsame]
      exact horder.snoc fun _ _ => rfl
  | missed _ => exact horder.snoc fun _ _ => rfl
  | checked _ => exact horder.snoc fun _ _ => rfl
  | emptied =>
      -- All entries are on the spare chain now.
      have hnil : blankLists c.layout b = [] := if_neg (Nat.ne_of_lt hb)
      rw [hnil]
      exact .nil _
  | reported => exact horder.snoc fun _ _ => rfl
  | measured => exact horder.snoc fun _ _ => rfl

theorem Trace.inPutOrder (h : Trace turns c lists) (hb : b < c.layout.binCount) :
    InPutOrder turns (c.keysOf (lists b)) := by
  induction h with
  | @fresh c hfresh =>
      have hnil : blankLists c.layout b = [] := if_neg (Nat.ne_of_lt hb)
      rw [hnil]
      exact .nil _
  | step htrace hstep ih =>
      rw [hstep.layout_eq] at hb
      exact hstep.inPutOrder htrace.sound hb (ih hb)

/-! ## The bins of a cache -/

theorem Sound.contains_iff_holds (h : c.Sound lists [] []) :
    c.contains k = .ok true ↔ ∃ data, c.Holds lists k data := by
  obtain ⟨present, hcontains, hiff⟩ := h.contains_spec k
  rw [hcontains, ← hiff, Except.ok.injEq]

theorem Sound.contains_iff (h : c.Sound lists [] []) :
    c.contains k = .ok true ↔
      ∃ id ∈ rows lists c.catalog.directory.binCount, (c.catalog.directory.item id).key = k := by
  rw [h.contains_iff_holds, ← not_iff_not, h.not_holds_iff]
  push Not
  rfl

/-- The keys of a bin are those that hash to it and that the cache contains. -/
theorem Sound.mem_keysOf_iff (h : c.Sound lists [] []) (hb : b < c.catalog.directory.binCount) :
    k ∈ c.keysOf (lists b) ↔ c.catalog.directory.binOf k = b ∧ c.contains k = .ok true := by
  rw [h.contains_iff, keysOf, List.mem_map]
  constructor
  · rintro ⟨id, hid, rfl⟩
    exact ⟨h.laid.home b hb id hid, id, mem_rows.2 ⟨b, hb, hid⟩, rfl⟩
  · rintro ⟨hbin, id, hid, rfl⟩
    exact ⟨id, hbin ▸ h.laid.mem_row hid, rfl⟩

/-- A put has its key at the end of its bin. -/
theorem Step.getLast?_keysOf (h : Step c lists t c' lists') (hc : c.Sound lists [] [])
    (hstores : t.storesKey k = true) :
    (c'.keysOf (lists' (c'.catalog.directory.binOf k))).getLast? = some k := by
  cases h with
  | stored hputs =>
      obtain rfl := eq_of_beq hstores
      rw [Directory.binOf_congr hputs.binCount_eq, hputs.keysOf_eq (hc.laid.binOf_lt _), if_pos rfl,
        List.getLast?_append]
      rfl
  | _ => cases hstores

/-- Every bin lists the keys that hash to it and that the cache contains, in the order in which they
were put last. So its head is the one that was put first of these, and the key of a put that has
just been done is the last of its bin. -/
theorem bins_in_put_order {c₀ : Cache} {requests : List Request} (hfresh : c₀.Fresh)
    (hrun : c₀.run requests = .ok (turns, c)) (hb : b < c.layout.binCount) :
    ∃ ids, c.catalog.directory.chain b = .ok ids ∧ c.catalog.directory.head b = .ok ids.head? ∧
      (∀ k, k ∈ c.keysOf ids ↔ c.catalog.directory.binOf k = b ∧ c.contains k = .ok true) ∧
      (c.keysOf ids).Nodup ∧ InPutOrder turns (c.keysOf ids) ∧
      ∀ before t k, turns = before ++ [t] → t.storesKey k = true →
        c.catalog.directory.binOf k = b → (c.keysOf ids).getLast? = some k := by
  obtain ⟨lists, htrace⟩ := Trace.of_run hfresh hrun
  have hsound := htrace.sound
  have horder := htrace.inPutOrder hb
  rw [← hsound.bins_eq] at hb
  refine ⟨lists b, hsound.laid.spells.chain_eq (Nat.le_of_lt hb), ?_,
    fun k => hsound.mem_keysOf_iff hb, horder.nodup, horder, ?_⟩
  · rw [Directory.head_eq (Nat.le_of_lt hb),
      (hsound.laid.spells.leads b (Nat.le_of_lt hb)).head?_eq]
  · rintro before t k rfl hstores rfl
    -- The cache before the last turn was sound as well.
    obtain ⟨c', lists', htrace', hstep⟩ := htrace.of_snoc
    exact hstep.getLast?_keysOf htrace'.sound hstores

/-- The key 1 is put again and so comes behind the key 2. -/
theorem bins_in_put_order_replaced :
    ∃ turns c ids, smallest.run [.put 1 ⟨#[1]⟩, .put 2 ⟨#[1]⟩, .put 1 ⟨#[2]⟩] = .ok (turns, c) ∧
      c.catalog.directory.chain 0 = .ok ids ∧ c.keysOf ids = [2, 1] ∧
      InPutOrder turns [2, 1] := by
  obtain ⟨turns, c, ids, hrun, hlayout, hchain, hkeys⟩ : ∃ turns c ids,
      smallest.run [.put 1 ⟨#[1]⟩, .put 2 ⟨#[1]⟩, .put 1 ⟨#[2]⟩] = .ok (turns, c) ∧
        c.layout = smallest.layout ∧ c.catalog.directory.chain 0 = .ok ids ∧
        c.keysOf ids = [2, 1] :=
    ⟨_, _, _, rfl, rfl, rfl, rfl⟩
  have hbin : 0 < c.layout.binCount := by
    rw [hlayout]
    decide
  obtain ⟨ids', hchain', _, _, _, horder, _⟩ := bins_in_put_order fresh_smallest hrun hbin
  rw [hchain] at hchain'
  cases hchain'
  exact ⟨turns, c, ids, hrun, hchain, hkeys, hkeys ▸ horder⟩

end Cache
end BlockCache

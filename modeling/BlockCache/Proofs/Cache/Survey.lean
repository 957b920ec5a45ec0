import BlockCache.Cache.Audit
import BlockCache.Proofs.Directory.Walks
import Mathlib.Data.List.Induction

/-!
# Survey — what following the chains finds

The audit follows every chain once and keeps in mind which entries it has met. What it finds depends
on the lists of the trails alone. This file defines:

* `Directory.Orderly d lists n` — the first `n` chains show no violation;
* `Directory.WellChained d lists` — no chain shows a violation;
* `Survey.Clean d b before here` — the entries `here` of the bin `b` show none when they are met
  after `before`;
* `Survey.Met d before here s` — the state of a survey that has met these entries;
* `Survey.Judges r fine post` — a part of a survey decides `fine`.

A survey goes through exactly if the directory is well chained, and reports a violation otherwise
(`survey_spec`).
-/

namespace BlockCache

/-- The entry as it is on no chain. -/
def Entry.unlinked (e : Entry) : Entry :=
  { e with next := none }

/-- An entry for at least one byte, in whole granules that the bytes fit. -/
structure Entry.Measured (e : Entry) : Prop where
  positive : 0 < e.dataLength
  dataLength_le : e.dataLength ≤ e.length
  length_dvd : granule ∣ e.length

theorem Entry.measured_iff {e : Entry} :
    e.Measured ↔ ¬ (e.length = 0 ∨ e.length % granule ≠ 0 ∨ e.length < e.dataLength ∨
      e.dataLength = 0) := by
  simp only [not_or, ne_eq, Classical.not_not, Nat.not_lt]
  constructor
  · rintro ⟨hpos, hle, hdvd⟩
    exact ⟨by omega, Nat.mod_eq_zero_of_dvd hdvd, hle, by omega⟩
  · rintro ⟨_, hmod, hle, hne⟩
    exact ⟨Nat.pos_of_ne_zero hne, hle, Nat.dvd_of_mod_eq_zero hmod⟩

/-- The first `n` chains share no entry and repeat none, and their entries are items that are
measured, sit in the bin of their key and do not have a key twice. -/
structure Directory.Orderly (d : Directory) (lists : Nat → List Nat) (n : Nat) : Prop where
  nodup : (rows lists n).Nodup
  home : ∀ b < n, ∀ id ∈ lists b, d.binOf (d.item id).key = b
  keys : ((rows lists n).map fun id => (d.item id).key).Nodup
  measured : ∀ id ∈ rows lists n, (d.item id).Measured

/-- The bins are orderly, and the spare chain brings no entry twice either. -/
structure Directory.WellChained (d : Directory) (lists : Nat → List Nat) : Prop
    extends d.Orderly lists d.binCount where
  once : (rows lists (d.binCount + 1)).Nodup

namespace Cache

variable {c : Cache} {d : Directory} {lists : Nat → List Nat} {b id : Nat}
  {before here ids : List Nat} {seen : Array Bool} {s : Survey}

namespace Survey

/-! ## Marks -/

/-- Exactly the entries `ids` are marked. -/
structure Marks (seen : Array Bool) (capacity : Nat) (ids : List Nat) : Prop where
  size_eq : seen.size = capacity
  marked_iff : ∀ id, seen[id]? = some true ↔ id ∈ ids

theorem marks_replicate (capacity : Nat) : Marks (Array.replicate capacity false) capacity [] where
  size_eq := Array.size_replicate
  marked_iff := by
    intro id
    rw [Array.getElem?_replicate]
    split_ifs <;> simp

theorem Marks.mark {capacity : Nat} (h : Marks seen capacity ids) (hid : id < capacity) :
    Marks (seen.setIfInBounds id true) capacity (ids ++ [id]) where
  size_eq := Array.size_setIfInBounds.trans h.size_eq
  marked_iff := by
    intro x
    rw [Array.getElem?_setIfInBounds, List.mem_append, List.mem_singleton, ← h.marked_iff]
    split_ifs with heq hlt
    · simp [heq]
    · exact absurd (h.size_eq ▸ hid) hlt
    · exact (or_iff_left (Ne.symm heq)).symm

/-! ## Entries of one bin -/

/-- The entry `id` of the bin `b` shows no violation after `before` and `here`. -/
structure Fits (d : Directory) (b : Nat) (before here : List Nat) (id : Nat) : Prop where
  unseen : id ∉ before ++ here
  home : d.binOf (d.item id).key = b
  key : (d.item id).key ∉ here.map fun x => (d.item x).key
  measured : (d.item id).Measured

structure Clean (d : Directory) (b : Nat) (before here : List Nat) : Prop where
  nodup : (before ++ here).Nodup
  home : ∀ id ∈ here, d.binOf (d.item id).key = b
  keys : (here.map fun id => (d.item id).key).Nodup
  measured : ∀ id ∈ here, (d.item id).Measured

theorem clean_nil (h : before.Nodup) : Clean d b before [] :=
  ⟨by rwa [List.append_nil], by simp, by simp, by simp⟩

theorem clean_snoc_iff :
    Clean d b before (here ++ [id]) ↔ Clean d b before here ∧ Fits d b before here id := by
  have hnodup : ∀ {α : Type} {l : List α} {x : α}, (l ++ [x]).Nodup ↔ x ∉ l ∧ l.Nodup := by
    intro α l x
    rw [← List.concat_eq_append, List.nodup_concat]
  constructor
  · rintro ⟨hall, hhome, hkeys, hmeasured⟩
    rw [← List.append_assoc, hnodup] at hall
    rw [List.map_append, List.map_singleton, hnodup] at hkeys
    rw [List.forall_mem_append, List.forall_mem_singleton] at hhome hmeasured
    exact ⟨⟨hall.2, hhome.1, hkeys.2, hmeasured.1⟩, ⟨hall.1, hhome.2, hkeys.1, hmeasured.2⟩⟩
  · rintro ⟨⟨hall, hhome, hkeys, hmeasured⟩, ⟨hunseen, hhome', hkey, hmeasured'⟩⟩
    refine ⟨?_, ?_, ?_, ?_⟩
    · rw [← List.append_assoc, hnodup]
      exact ⟨hunseen, hall⟩
    · exact List.forall_mem_append.2 ⟨hhome, List.forall_mem_singleton.2 hhome'⟩
    · rw [List.map_append, List.map_singleton, hnodup]
      exact ⟨hkey, hkeys⟩
    · exact List.forall_mem_append.2 ⟨hmeasured, List.forall_mem_singleton.2 hmeasured'⟩

/-! ## Judgements -/

/-- A part of a survey goes through, in a state as described, exactly if there is nothing wrong; it
reports a violation otherwise, and never stops for a fault. -/
inductive Judges (r : Except Stop Survey) (fine : Prop) (post : Survey → Prop) : Prop
  | passed (hfine : fine) (s : Survey) (heq : r = .ok s) (hpost : post s)
  | failed (hnot : ¬ fine) (v : Violation) (heq : r = .error (.violation v))

/-- What follows a part can add to what is asked for. -/
theorem Judges.bind {r : Except Stop Survey} {f : Survey → Except Stop Survey}
    {fine fine' : Prop} {post post' : Survey → Prop} (h : Judges r fine post)
    (hnext : ∀ s, fine → post s → Judges (f s) fine' post') (hmono : fine' → fine) :
    Judges (r >>= f) fine' post' := by
  cases h with
  | passed hfine s heq hpost =>
      rw [heq]
      exact hnext s hfine hpost
  | failed hnot v heq =>
      rw [heq]
      exact .failed (fun h => hnot (hmono h)) v rfl

/-! ## Following a bin -/

/-- The survey has met the entries `before` on the chains before the one that it follows, and the
entries `here` on that one. -/
structure Met (d : Directory) (before here : List Nat) (s : Survey) : Prop where
  marks : Marks s.seen d.capacity (before ++ here)
  before : (s.before.map Entry.unlinked).Perm (before.map d.item)
  here : (s.here.map Entry.unlinked).Perm (here.map d.item)

/-- An item is compared with the items of the same bin. -/
theorem Met.any_key_iff (h : Met d before here s) {key : UInt32} :
    s.here.any (·.key == key) ↔ key ∈ here.map fun x => (d.item x).key := by
  have hkeys : (s.here.map (·.key)).Perm (here.map fun x => (d.item x).key) := by
    have hmap := h.here.map (·.key)
    rwa [List.map_map, List.map_map] at hmap
  rw [← hkeys.mem_iff, List.any_eq_true, List.mem_map]
  simp only [beq_iff_eq]

theorem surveyEntry_spec (hd : c.catalog.directory = d) (hbins : d.binCount = c.layout.binCount)
    (hb : b < d.binCount) (hid : id < d.capacity) (h : Met d before here s) :
    Judges (c.surveyEntry b s id) (Fits d b before here id) (Met d before (here ++ [id])) := by
  subst hd
  by_cases hunseen : id ∈ before ++ here
  · refine .failed (fun hfits => hfits.unseen hunseen) (.reachedTwice id) ?_
    rw [surveyEntry, if_pos ((h.marks.marked_iff id).2 hunseen)]
  · have hseen : ¬ s.seen[id]? = some true := fun hmark =>
      hunseen ((h.marks.marked_iff id).1 hmark)
    obtain ⟨e, hentry, _, hitem⟩ := Directory.entry_of_lt hid
    have hkey : (c.catalog.directory.item id).key = e.key := by rw [← hitem]
    have hmeasured : (c.catalog.directory.item id).Measured ↔ e.Measured := by
      rw [← hitem, Entry.measured_iff, Entry.measured_iff]
    simp only [surveyEntry, hseen, if_false, hbins ▸ Nat.ne_of_lt hb, hentry, surveyItem,
      h.any_key_iff]
    split_ifs with hhome htwice hlengths
    · exact .failed (fun hfits => hhome (hkey ▸ hfits.home)) _ rfl
    · exact .failed (fun hfits => hfits.key (hkey ▸ htwice)) _ rfl
    · exact .failed (fun hfits => (Entry.measured_iff.1 (hmeasured.1 hfits.measured)) hlengths) _
        rfl
    · refine .passed ⟨hunseen, hkey ▸ Classical.not_not.1 hhome, hkey ▸ htwice,
        hmeasured.2 (Entry.measured_iff.2 hlengths)⟩ _ rfl ⟨?_, h.before, ?_⟩
      · rw [← List.append_assoc]
        exact h.marks.mark hid
      · -- The survey puts the latest item first.
        rw [List.map_cons, List.map_append, List.map_singleton, ← hitem]
        exact (h.here.cons _).trans (List.perm_append_singleton ..).symm

theorem surveyEntries_spec (hd : c.catalog.directory = d)
    (hbins : d.binCount = c.layout.binCount) (hb : b < d.binCount)
    (hids : ∀ id ∈ ids, id < d.capacity) (hbefore : before.Nodup) (h : Met d before [] s) :
    Judges (ids.foldlM (c.surveyEntry b) s) (Clean d b before ids) (Met d before ids) := by
  induction ids using List.reverseRecOn with
  | nil => exact .passed (clean_nil hbefore) s rfl h
  | append_singleton ids id ih =>
      rw [List.foldlM_append]
      rw [List.forall_mem_append, List.forall_mem_singleton] at hids
      refine (ih hids.1).bind (fun s' hclean hmet => ?_) fun hclean => (clean_snoc_iff.1 hclean).1
      rw [List.foldlM_cons]
      refine (surveyEntry_spec hd hbins hb hids.2 hmet).bind (fun s'' hfits hmet' => ?_)
        fun hclean => (clean_snoc_iff.1 hclean).2
      exact .passed (clean_snoc_iff.2 ⟨hclean, hfits⟩) s'' rfl hmet'

/-! ## Following all chains -/

theorem surveyChain_eq (hd : c.catalog.directory = d) (htrails : d.Trails lists)
    (hb : b ≤ d.binCount) :
    c.surveyChain s b = (lists b).foldlM (c.surveyEntry b) ⟨s.seen, [], s.items⟩ := by
  subst hd
  rw [surveyChain, htrails.trail_eq b hb]
  exact bind_pure _

theorem Met.next (h : Met d before here s) : Met d (before ++ here) [] ⟨s.seen, [], s.items⟩ where
  marks := by
    rw [List.append_nil]
    exact h.marks
  before := by
    rw [items, List.map_append, List.map_append]
    exact (h.here.append h.before).trans List.perm_append_comm
  here := .nil

/-- A further chain shares no key with those before it, since keys sit in their bins. -/
theorem orderly_succ_iff :
    d.Orderly lists (b + 1) ↔ d.Orderly lists b ∧ Clean d b (rows lists b) (lists b) := by
  constructor
  · rintro ⟨hnodup, hhome, hkeys, hmeasured⟩
    rw [rows_succ] at hnodup hkeys hmeasured
    rw [List.map_append, List.nodup_append] at hkeys
    rw [List.forall_mem_append] at hmeasured
    exact ⟨⟨(List.nodup_append.1 hnodup).1, fun b' hb' => hhome b' (Nat.lt_succ_of_lt hb'),
      hkeys.1, hmeasured.1⟩, ⟨hnodup, hhome b (Nat.lt_succ_self b), hkeys.2.1, hmeasured.2⟩⟩
  · rintro ⟨⟨_, hhome, hkeys, hmeasured⟩, ⟨hnodup, hhome', hkeys', hmeasured'⟩⟩
    refine ⟨?_, ?_, ?_, ?_⟩
    · rwa [rows_succ]
    · intro b' hb'
      rcases Nat.lt_or_eq_of_le (Nat.le_of_lt_succ hb') with hlt | rfl
      · exact hhome b' hlt
      · exact hhome'
    · rw [rows_succ, List.map_append, List.nodup_append]
      refine ⟨hkeys, hkeys', ?_⟩
      rintro _ hkey _ hkey' rfl
      obtain ⟨id, hid, heq⟩ := List.mem_map.1 hkey
      obtain ⟨id', hid', heq'⟩ := List.mem_map.1 hkey'
      obtain ⟨b', hb', hmem⟩ := mem_rows.1 hid
      have hbin := hhome b' hb' id hmem
      rw [heq, ← heq', hhome' id' hid'] at hbin
      exact Nat.ne_of_gt hb' hbin
    · rw [rows_succ]
      exact List.forall_mem_append.2 ⟨hmeasured, hmeasured'⟩

theorem orderly_zero : d.Orderly lists 0 :=
  ⟨List.nodup_nil, by simp, List.nodup_nil, by simp [rows]⟩

theorem met_fresh (d : Directory) : Met d [] [] ⟨Array.replicate d.capacity false, [], []⟩ where
  marks := marks_replicate d.capacity
  before := .nil
  here := .nil

theorem surveyBins_spec (hd : c.catalog.directory = d) (htrails : d.Trails lists)
    (hbins : d.binCount = c.layout.binCount) {n : Nat} (hn : n ≤ d.binCount) :
    Judges ((List.range n).foldlM c.surveyChain ⟨Array.replicate d.capacity false, [], []⟩)
      (d.Orderly lists n) (fun s => Met d (rows lists n) [] ⟨s.seen, [], s.items⟩) := by
  induction n with
  | zero => exact .passed orderly_zero _ rfl (met_fresh d)
  | succ n ih =>
      rw [List.range_succ, List.foldlM_append]
      have hlt : n < d.binCount := hn
      refine (ih (Nat.le_of_lt hlt)).bind (fun s horderly hmet => ?_) fun h =>
        (orderly_succ_iff.1 h).1
      have hchain := surveyEntries_spec hd hbins hlt (htrails.lt_capacity n (Nat.le_of_lt hlt))
        horderly.nodup hmet
      rw [List.foldlM_cons, surveyChain_eq hd htrails (Nat.le_of_lt hlt)]
      refine hchain.bind (fun s' hclean hmet' => ?_) fun h => (orderly_succ_iff.1 h).2
      refine .passed (orderly_succ_iff.2 ⟨horderly, hclean⟩) s' rfl ?_
      rw [rows_succ]
      exact hmet'.next

/-! ## Following the spare chain -/

theorem surveySpare_spec (hbins : d.binCount = c.layout.binCount)
    (hids : ∀ id ∈ ids, id < d.capacity) (hbefore : before.Nodup)
    (h : Marks s.seen d.capacity before) :
    Judges (ids.foldlM (c.surveyEntry d.binCount) s) (before ++ ids).Nodup
      (fun s' => Marks s'.seen d.capacity (before ++ ids) ∧ s'.items = s.items) := by
  induction ids using List.reverseRecOn with
  | nil =>
      rw [List.append_nil]
      exact .passed hbefore s rfl ⟨h, rfl⟩
  | append_singleton ids id ih =>
      rw [List.forall_mem_append, List.forall_mem_singleton] at hids
      rw [List.foldlM_append, ← List.append_assoc, ← List.concat_eq_append, List.nodup_concat]
      refine (ih hids.1).bind (fun s' hnodup ⟨hmarks, hitems⟩ => ?_) fun h => h.2
      by_cases hseen : s'.seen[id]? = some true
      · refine .failed (fun h => h.1 ((hmarks.marked_iff id).1 hseen)) (.reachedTwice id) ?_
        rw [List.foldlM_cons, surveyEntry, if_pos hseen]
        rfl
      · refine .passed ⟨fun hmem => hseen ((hmarks.marked_iff id).2 hmem), hnodup⟩
          { s' with seen := s'.seen.setIfInBounds id true } ?_ ⟨?_, hitems⟩
        · rw [List.foldlM_cons, surveyEntry, if_neg hseen, if_pos hbins]
          rfl
        · rw [List.concat_eq_append]
          exact hmarks.mark hids.2

/-- The survey has met the entries of all chains. -/
structure Complete (d : Directory) (lists : Nat → List Nat) (s : Survey) : Prop where
  marks : Marks s.seen d.capacity (rows lists (d.binCount + 1))
  items : (s.items.map Entry.unlinked).Perm ((rows lists d.binCount).map d.item)

end Survey

open Survey in
/-- A survey goes through exactly if the directory is well chained. Then it has met the entries of
all chains. -/
theorem survey_spec (hd : c.catalog.directory = d) (htrails : d.Trails lists)
    (hbins : d.binCount = c.layout.binCount) :
    Judges c.survey (d.WellChained lists) (Complete d lists) := by
  rw [survey, ← hbins, hd, List.range_succ, List.foldlM_append]
  refine (surveyBins_spec hd htrails hbins (Nat.le_refl _)).bind
    (fun s horderly hmet => ?_) fun h => h.toOrderly
  have hspare := surveySpare_spec hbins (htrails.lt_capacity _ (Nat.le_refl _))
    horderly.nodup (List.append_nil (rows lists d.binCount) ▸ hmet.marks)
  rw [← rows_succ] at hspare
  rw [List.foldlM_cons, surveyChain_eq hd htrails (Nat.le_refl _)]
  refine hspare.bind (fun s' hnodup hmarks => ?_) fun h => h.once
  -- The spare chain has no items, so these are the ones that the bins had.
  refine .passed ⟨horderly, hnodup⟩ s' rfl ⟨hmarks.1, ?_⟩
  rw [hmarks.2]
  exact hmet.before

end Cache
end BlockCache

import BlockCache.Proofs.Directory.Leads
import Mathlib.Logic.Function.Basic

/-!
# Spells — a directory as one list of entries per chain

`d.Spells lists` says that the chain number `c` of `d` is the list `lists c`, for every bin and for
the spare chain, and that no entry is on two of them. The operations on the links are then
operations on lists: each changes one list, and keeps what the entries hold
(`Directory.SameItems`).
-/

namespace BlockCache
namespace Directory

variable {d d' d'' : Directory} {lists : Nat → List Nat} {c id : Nat}

/-! ## Heads -/

/-- The head of a chain, where the spare chain comes after the bins. -/
def headOf (d : Directory) (c : Nat) : Option Nat :=
  if c < d.binCount then d.bins[c]?.join else d.spare

theorem head_eq (hc : c ≤ d.binCount) : d.head c = .ok (d.headOf c) := by
  rcases Nat.lt_or_eq_of_le hc with hlt | rfl
  · have hbin : d.bins[c]? = some d.bins[c] := Array.getElem?_eq_getElem hlt
    simp [head, headOf, hbin, hlt]
  · simp [head, headOf, binCount]

theorem headOf_spare (d : Directory) : d.headOf d.binCount = d.spare := by
  simp [headOf]

theorem setHead_spec (hc : c ≤ d.binCount) (h : Option Nat) :
    ∃ d', d.setHead c h = .ok d' ∧ d'.entries = d.entries ∧ d'.binCount = d.binCount ∧
      d'.headOf c = h ∧ ∀ c', c' ≠ c → c' ≤ d.binCount → d'.headOf c' = d.headOf c' := by
  rcases Nat.lt_or_eq_of_le hc with hlt | rfl
  · have hsize : c < d.bins.size := hlt
    refine ⟨_, if_pos hlt, rfl, Array.size_setIfInBounds, ?_, ?_⟩
    · simp [headOf, binCount, hsize]
    · intro c' hne _
      simp only [headOf, binCount, Array.size_setIfInBounds,
        Array.getElem?_setIfInBounds_ne (Ne.symm hne)]
      rfl
  · -- The head behind the last bin is the one of the spare chain.
    refine ⟨{ d with spare := h }, ?_, rfl, rfl, ?_, ?_⟩
    · simp [setHead]
    · simp [headOf, binCount]
    · intro c' hne hle
      have hlt : c' < d.bins.size := Nat.lt_of_le_of_ne hle hne
      simp [headOf, binCount, hlt]

/-- The bin of a key is told by the number of bins alone. -/
theorem binOf_congr (h : d'.binCount = d.binCount) (key : UInt32) : d'.binOf key = d.binOf key := by
  rw [binOf, binOf, h]

/-! ## Items -/

/-- What the entry `id` holds, apart from its link. -/
def item (d : Directory) : Nat → Entry :=
  itemAt d.entries

/-- The two directories differ in links and heads only. -/
structure SameItems (d d' : Directory) : Prop where
  binCount_eq : d'.binCount = d.binCount
  capacity_eq : d'.capacity = d.capacity
  item_eq : d'.item = d.item

theorem SameItems.refl (d : Directory) : d.SameItems d :=
  ⟨rfl, rfl, rfl⟩

theorem SameItems.trans (h : d.SameItems d') (h' : d'.SameItems d'') : d.SameItems d'' :=
  ⟨h'.binCount_eq.trans h.binCount_eq, h'.capacity_eq.trans h.capacity_eq,
    h'.item_eq.trans h.item_eq⟩

theorem entry_of_lt (hid : id < d.capacity) :
    ∃ e, d.entry id = .ok e ∧ d.entries[id]? = some e ∧ { e with next := none } = d.item id := by
  have he : d.entries[id]? = some d.entries[id] := Array.getElem?_eq_getElem hid
  refine ⟨d.entries[id], ?_, he, (itemAt_of_some he).symm⟩
  rw [entry, he]

theorem relink_eq (hid : id < d.capacity) (next : Option Nat) :
    d.relink id next = .ok { d with entries := setLink d.entries id next } :=
  if_pos hid

/-- Adjusting an entry leaves all heads and all other entries alone. -/
theorem adjust_spec (hid : id < d.capacity) (f : Entry → Entry) :
    ∃ e d', d.adjust id f = .ok d' ∧ d.entries[id]? = some e ∧ d'.binCount = d.binCount ∧
      d'.capacity = d.capacity ∧ d'.headOf = d.headOf ∧
      d'.item = Function.update d.item id { f e with next := none } ∧
      link d'.entries id = some (f e).next ∧
      ∀ x, x ≠ id → link d'.entries x = link d.entries x := by
  have hget : d.entries[id]? = some d.entries[id] := Array.getElem?_eq_getElem hid
  have hself : (d.entries.modify id f)[id]? = some (f d.entries[id]) := by
    rw [Array.getElem?_modify, if_pos rfl, hget]
    rfl
  have hother : ∀ x, x ≠ id → (d.entries.modify id f)[x]? = d.entries[x]? := by
    intro x hne
    rw [Array.getElem?_modify, if_neg (Ne.symm hne)]
  refine ⟨d.entries[id], { d with entries := d.entries.modify id f }, if_pos hid, hget, rfl,
    Array.size_modify, rfl, ?_, ?_, fun x hne => ?_⟩
  · funext x
    by_cases hx : x = id
    · subst hx
      rw [Function.update_self, item, itemAt_of_some hself]
    · rw [Function.update_of_ne hx, item, itemAt, hother x hx, item, itemAt]
  · rw [link, hself]
    rfl
  · rw [link, link, hother x hne]

/-- What the entries hold is in the table, not in the heads. -/
theorem sameItems_of_entries (hbins : d'.binCount = d.binCount)
    (hentries : d'.entries = d.entries) : d.SameItems d' where
  binCount_eq := hbins
  capacity_eq := by rw [capacity, hentries]; rfl
  item_eq := by rw [item, hentries]; rfl

/-- Stamping one entry changes no entry but for its time. -/
theorem item_of_stamped {now : Nat}
    (h : d'.item = Function.update d.item id { d.item id with time := now }) (x : Nat) :
    ∃ t, d'.item x = { d.item x with time := t } := by
  by_cases hx : x = id
  · subst hx
    exact ⟨now, by rw [h, Function.update_self]⟩
  · exact ⟨(d.item x).time, by rw [h, Function.update_of_ne hx]⟩

/-- A directory of which only the table has changed, and in it only a link. -/
theorem sameItems_setLink (d : Directory) (id : Nat) (next : Option Nat) :
    d.SameItems { d with entries := setLink d.entries id next } :=
  ⟨rfl, size_setLink .., itemAt_setLink ..⟩

/-! ## Chains as lists -/

structure Spells (d : Directory) (lists : Nat → List Nat) : Prop where
  leads : ∀ c ≤ d.binCount, Leads d.entries (d.headOf c) (lists c) none
  apart : ∀ c ≤ d.binCount, ∀ c' ≤ d.binCount, ∀ id ∈ lists c, id ∈ lists c' → c = c'

/-- `id` is on no chain. -/
def Unlisted (d : Directory) (lists : Nat → List Nat) (id : Nat) : Prop :=
  ∀ c ≤ d.binCount, id ∉ lists c

namespace Spells

theorem lt_capacity (h : d.Spells lists) (hc : c ≤ d.binCount) (hid : id ∈ lists c) :
    id < d.capacity :=
  (h.leads c hc).lt_size id hid

theorem nodup (h : d.Spells lists) (hc : c ≤ d.binCount) : (lists c).Nodup :=
  (h.leads c hc).nodup

/-- Relinking an entry that is on no chain changes no chain. -/
theorem setLink (h : d.Spells lists) (hid : d.Unlisted lists id) (next : Option Nat) :
    Spells { d with entries := setLink d.entries id next } lists where
  leads := fun c hc => (h.leads c hc).congr fun _ hx =>
    link_setLink_of_ne fun heq => hid c hc (heq ▸ hx)
  apart := h.apart

/-- Relinking an entry of one chain changes no link of the others. -/
theorem link_other (h : d.Spells lists) (hc : c ≤ d.binCount) (hid : id ∈ lists c)
    (next : Option Nat) : ∀ c', c' ≠ c → c' ≤ d.binCount → ∀ x ∈ lists c',
      link (BlockCache.setLink d.entries id next) x = link d.entries x := by
  intro c' hne hc' x hx
  apply link_setLink_of_ne
  intro heq
  apply hne
  exact h.apart c' hc' c hc x hx (heq ▸ hid)

/-- An entry that is taken off its chain is on no chain then. -/
theorem unlisted_update {l : List Nat} (h : d.Spells lists) (hc : c ≤ d.binCount)
    (hid : id ∈ lists c) (hout : id ∉ l) (hbins : d'.binCount = d.binCount) :
    d'.Unlisted (Function.update lists c l) id := by
  intro c' hc' hmem
  rw [hbins] at hc'
  by_cases hsame : c' = c
  · subst hsame
    rw [Function.update_self] at hmem
    exact hout hmem
  · rw [Function.update_of_ne hsame] at hmem
    exact hsame (h.apart c' hc' c hc id hmem hid)

/-- One chain is replaced by entries of its own or of no chain; the others are left alone. -/
theorem replace {l : List Nat} (h : d.Spells lists) (hbins : d'.binCount = d.binCount)
    (hleads : Leads d'.entries (d'.headOf c) l none)
    (hheads : ∀ c', c' ≠ c → c' ≤ d.binCount → d'.headOf c' = d.headOf c')
    (hlinks : ∀ c', c' ≠ c → c' ≤ d.binCount → ∀ id ∈ lists c',
      link d'.entries id = link d.entries id)
    (hown : ∀ id ∈ l, ∀ c' ≤ d.binCount, id ∈ lists c' → c' = c) :
    d'.Spells (Function.update lists c l) := by
  constructor
  · intro c' hc'
    rw [hbins] at hc'
    rcases eq_or_ne c' c with rfl | hne
    · rw [Function.update_self]
      exact hleads
    · rw [Function.update_of_ne hne, hheads c' hne hc']
      exact (h.leads c' hc').congr (hlinks c' hne hc')
  · -- At most one of the two chains is the new one, and it has no entry of the other.
    intro a ha b hb id hida hidb
    rw [hbins] at ha hb
    rcases eq_or_ne a c with rfl | hac
    · rcases eq_or_ne b a with rfl | hba
      · rfl
      · rw [Function.update_self] at hida
        rw [Function.update_of_ne hba] at hidb
        exact (hown id hida b hb hidb).symm
    · rw [Function.update_of_ne hac] at hida
      rcases eq_or_ne b c with rfl | hbc
      · rw [Function.update_self] at hidb
        exact hown id hidb a ha hida
      · rw [Function.update_of_ne hbc] at hidb
        exact h.apart a ha b hb id hida hidb

/-- Filling an entry that is on no chain changes no chain. -/
theorem fill_spec (h : d.Spells lists) (hid : id < d.capacity) (hfree : d.Unlisted lists id)
    {e : Entry} (hnext : e.next = none) :
    ∃ d', d.adjust id (fun _ => e) = .ok d' ∧ d'.Spells lists ∧ d'.binCount = d.binCount ∧
      d'.capacity = d.capacity ∧ d'.item = Function.update d.item id e := by
  obtain ⟨_, d', hadjust, _, hbins, hcapacity, hheads, hitems, _, hlinks⟩ :=
    adjust_spec hid fun _ => e
  have hblank : { e with next := none } = e := by rw [← hnext]
  refine ⟨d', hadjust, ⟨fun c hc => ?_, fun c hc c' hc' => ?_⟩, hbins, hcapacity, ?_⟩
  · rw [hbins] at hc
    rw [hheads]
    exact (h.leads c hc).congr fun x hx => hlinks x fun heq => hfree c hc (heq ▸ hx)
  · exact h.apart c (hbins ▸ hc) c' (hbins ▸ hc')
  · rw [hitems, hblank]

/-- Stamping an entry changes no chain. -/
theorem stamp_spec (h : d.Spells lists) (hid : id < d.capacity) (now : Nat) :
    ∃ d', d.adjust id (fun e => { e with time := now }) = .ok d' ∧ d'.Spells lists ∧
      d'.binCount = d.binCount ∧ d'.capacity = d.capacity ∧
      d'.item = Function.update d.item id { d.item id with time := now } := by
  obtain ⟨e, d', hadjust, hget, hbins, hcapacity, hheads, hitems, hlink, hlinks⟩ :=
    adjust_spec hid fun e => { e with time := now }
  refine ⟨d', hadjust, ⟨fun c hc => ?_, fun c hc c' hc' => ?_⟩, hbins, hcapacity, ?_⟩
  · rw [hbins] at hc
    rw [hheads]
    apply (h.leads c hc).congr
    intro x _
    by_cases hx : x = id
    · -- The link of the entry is rewritten as it was.
      subst hx
      rw [hlink, link_eq_some_iff.2 ⟨e, hget, rfl⟩]
    · exact hlinks x hx
  · exact h.apart c (hbins ▸ hc) c' (hbins ▸ hc')
  · have hitem : d.item id = { e with next := none } := itemAt_of_some hget
    rw [hitems, hitem]

/-! ## Walks -/

theorem chain_eq (h : d.Spells lists) (hc : c ≤ d.binCount) : d.chain c = .ok (lists c) := by
  have hwalk := (h.leads c hc).walk_eq (h.leads c hc).length_le
  simp only [chain, trail, head_eq hc, Except.map, ok_bind, trailFrom, capacity, hwalk]
  rfl

theorem last_eq (h : d.Spells lists) (hc : c ≤ d.binCount) :
    d.last c = .ok (lists c).getLast? := by
  -- A walk that keeps the entry it has met last.
  have hfold : ∀ (l : List Nat) (s : Option Nat),
      l.foldl (fun _ id => some id) s = l.getLast?.or s := by
    intro l
    induction l with
    | nil => exact fun s => rfl
    | cons x l ih =>
        intro s
        rw [List.foldl_cons, ih, List.getLast?_cons]
        cases l.getLast? <;> rfl
  simp only [last, head_eq hc, ok_bind, capacity, (h.leads c hc).fold_eq, hfold, Option.or_none]

theorem chainLength_eq (h : d.Spells lists) (hc : c ≤ d.binCount) :
    d.chainLength c = .ok (lists c).length := by
  have hfold : ∀ (l : List Nat) (n : Nat), l.foldl (fun n _ => n + 1) n = n + l.length := by
    intro l
    induction l with
    | nil => exact fun n => rfl
    | cons x l ih =>
        intro n
        rw [List.foldl_cons, ih, List.length_cons]
        omega
  simp only [chainLength, head_eq hc, ok_bind, capacity, (h.leads c hc).fold_eq, hfold,
    Nat.zero_add]

/-! ## Finding -/

/-- The first entry with the key is found in the bin of the key, with the entry before it. -/
theorem find_found (h : d.Spells lists) {key : UInt32} (hbin : d.binOf key ≤ d.binCount)
    {front back : List Nat} (hlist : lists (d.binOf key) = front ++ id :: back)
    (hother : ∀ x ∈ front, (d.item x).key ≠ key) (hkey : (d.item id).key = key) :
    d.find key = .ok (some ⟨d.binOf key, front.getLast?, id⟩) := by
  have hleads := h.leads _ hbin
  have hlength := hleads.length_le
  rw [hlist] at hleads hlength
  rw [List.length_append, List.length_cons] at hlength
  have hseek : seek d.entries (d.binOf key) key d.capacity none (d.headOf (d.binOf key)) =
      .ok (some ⟨d.binOf key, front.getLast?.or none, id⟩) :=
    hleads.seek_found hother hkey (by simp only [capacity]; omega)
  simp only [find, head_eq hbin, ok_bind, hseek, Option.or_none]

theorem find_missed (h : d.Spells lists) {key : UInt32} (hbin : d.binOf key ≤ d.binCount)
    (hother : ∀ x ∈ lists (d.binOf key), (d.item x).key ≠ key) : d.find key = .ok none := by
  simp only [find, head_eq hbin, ok_bind]
  exact (h.leads _ hbin).seek_missed hother

/-! ## Linking and unlinking -/

/-- A chain starts over with one entry, which is on no chain and links to none. -/
theorem restart_spec (h : d.Spells lists) (hc : c ≤ d.binCount)
    (hlink : link d.entries id = some none) (hfree : d.Unlisted lists id) :
    ∃ d', d.setHead c (some id) = .ok d' ∧ d'.Spells (Function.update lists c [id]) ∧
      d.SameItems d' := by
  obtain ⟨d', hset, hentries, hbins, hhead, hheads⟩ := setHead_spec hc (some id)
  refine ⟨d', hset, ?_, sameItems_of_entries hbins hentries⟩
  apply h.replace hbins
  · rw [hhead, hentries]
    exact ⟨rfl, none, hlink, rfl⟩
  · exact hheads
  · intro c' _ _ x _
    rw [hentries]
  · intro x hx c' hc' hxc'
    rcases List.mem_singleton.1 hx with rfl
    exact absurd hxc' (hfree c' hc')

/-- The last entry of a chain links to a new one, which is on no chain and links to none. -/
theorem extend_spec (h : d.Spells lists) (hc : c ≤ d.binCount) {front : List Nat}
    {tail : Nat} (hlist : lists c = front ++ [tail]) (hlink : link d.entries id = some none)
    (hfree : d.Unlisted lists id) :
    ∃ d', d.relink tail (some id) = .ok d' ∧
      d'.Spells (Function.update lists c (front ++ [tail] ++ [id])) ∧ d.SameItems d' := by
  have hmem : tail ∈ lists c := by simp [hlist]
  have hleads := h.leads c hc
  have hnodup := h.nodup hc
  rw [hlist] at hleads hnodup
  have htail : tail ∉ front := fun hx =>
    (List.nodup_append.1 hnodup).2.2 tail hx tail (List.mem_singleton_self tail) rfl
  have hne : id ≠ tail := fun heq => hfree c hc (heq ▸ hmem)
  refine ⟨_, relink_eq (h.lt_capacity hc hmem) (some id), ?_, sameItems_setLink ..⟩
  refine h.replace rfl ?_ ?_ ?_ ?_
  · refine Leads.snoc_iff.2 ⟨hleads.redirect htail (some id), ?_⟩
    rw [link_setLink_of_ne hne]
    exact hlink
  · exact fun _ _ _ => rfl
  · exact h.link_other hc hmem (some id)
  · intro x hx c' hc' hxc'
    rcases List.mem_append.1 hx with hx | hx
    · exact h.apart c' hc' c hc x hxc' (hlist ▸ hx)
    · rcases List.mem_singleton.1 hx with rfl
      exact absurd hxc' (hfree c' hc')

theorem append_spec (h : d.Spells lists) (hc : c ≤ d.binCount) (hid : id < d.capacity)
    (hfree : d.Unlisted lists id) :
    ∃ d', d.append c id = .ok d' ∧ d'.Spells (Function.update lists c (lists c ++ [id])) ∧
      d.SameItems d' := by
  -- The new entry is the end of its chain before it is on one.
  have h₁ := h.setLink hfree none
  have hlast := h₁.last_eq hc
  have hlink : link (BlockCache.setLink d.entries id none) id = some none := link_setLink_self hid
  have hsame := sameItems_setLink d id none
  simp only [append, relink_eq hid, ok_bind, hlast]
  rcases List.eq_nil_or_concat (lists c) with hnil | ⟨front, tail, hsnoc⟩
  · obtain ⟨d', hset, hspells, hsame'⟩ := h₁.restart_spec hc hlink hfree
    simp only [hnil, List.getLast?_nil, List.nil_append]
    exact ⟨d', hset, hspells, hsame.trans hsame'⟩
  · rw [List.concat_eq_append] at hsnoc
    obtain ⟨d', hrelink, hspells, hsame'⟩ := h₁.extend_spec hc hsnoc hlink hfree
    simp only [hsnoc, List.getLast?_append_cons, List.getLast?_singleton]
    exact ⟨d', hrelink, hspells, hsame.trans hsame'⟩

/-- The head of a chain is passed by when the chain starts at the entry after it. -/
theorem skip_head_spec (h : d.Spells lists) (hc : c ≤ d.binCount) {back : List Nat}
    {next : Option Nat} (hlist : lists c = id :: back) (hlink : link d.entries id = some next) :
    ∃ d', d.setHead c next = .ok d' ∧ d'.Spells (Function.update lists c back) ∧
      d.SameItems d' := by
  obtain ⟨d', hset, hentries, hbins, hhead, hheads⟩ := setHead_spec hc next
  have hleads := h.leads c hc
  rw [hlist] at hleads
  refine ⟨d', hset, ?_, sameItems_of_entries hbins hentries⟩
  apply h.replace hbins
  · rw [hhead, hentries]
    rcases hleads with ⟨_, next', hlink', hback⟩
    cases hlink.symm.trans hlink'
    exact hback
  · exact hheads
  · intro c' _ _ x _
    rw [hentries]
  · intro x hx c' hc' hxc'
    exact h.apart c' hc' c hc x hxc' (hlist ▸ List.mem_cons_of_mem id hx)

/-- Any other entry is passed by when the entry before it links to the entry after it. -/
theorem skip_spec (h : d.Spells lists) (hc : c ≤ d.binCount) {ahead back : List Nat}
    {prev : Nat} {next : Option Nat} (hlist : lists c = ahead ++ [prev] ++ id :: back)
    (hlink : link d.entries id = some next) :
    ∃ d', d.relink prev next = .ok d' ∧
      d'.Spells (Function.update lists c (ahead ++ [prev] ++ back)) ∧ d.SameItems d' := by
  have hprev : prev ∈ lists c := by simp [hlist]
  have hleads := h.leads c hc
  have hnodup := h.nodup hc
  rw [hlist] at hleads hnodup
  rcases Leads.append_iff.1 hleads with ⟨middle, hfront, rfl, next', hlink', hback⟩
  cases hlink.symm.trans hlink'
  rw [List.nodup_append] at hnodup
  rcases hnodup with ⟨hfrontNodup, _, hcross⟩
  have hahead : prev ∉ ahead := fun hx =>
    (List.nodup_append.1 hfrontNodup).2.2 prev hx prev (List.mem_singleton_self prev) rfl
  have hbackNe : ∀ x ∈ back, x ≠ prev := fun x hx heq =>
    hcross prev (by simp) x (List.mem_cons_of_mem id hx) heq.symm
  refine ⟨_, relink_eq (h.lt_capacity hc hprev) next, ?_, sameItems_setLink ..⟩
  refine h.replace rfl ?_ ?_ ?_ ?_
  · refine Leads.append_iff.2 ⟨next, hfront.redirect hahead next, ?_⟩
    exact hback.congr fun x hx => link_setLink_of_ne (hbackNe x hx)
  · exact fun _ _ _ => rfl
  · exact h.link_other hc hprev next
  · intro x hx c' hc' hxc'
    apply h.apart c' hc' c hc x hxc'
    rw [hlist]
    rcases List.mem_append.1 hx with hx | hx
    · exact List.mem_append_left _ hx
    · exact List.mem_append_right _ (List.mem_cons_of_mem id hx)

/-- In a chain around an entry, the entry is neither in front of itself nor behind. -/
theorem not_mem_around (h : d.Spells lists) (hc : c ≤ d.binCount) {front back : List Nat}
    (hlist : lists c = front ++ id :: back) : id ∉ front ∧ id ∉ back := by
  have hnodup := h.nodup hc
  rw [hlist, List.nodup_append, List.nodup_cons] at hnodup
  rcases hnodup with ⟨_, ⟨hback, _⟩, hcross⟩
  exact ⟨fun hx => hcross id hx id (List.mem_cons_self ..) rfl, hback⟩

/-- Whoever unlinks an entry passes on the entry before it, if there is one. -/
theorem unlink_spec (h : d.Spells lists) (hc : c ≤ d.binCount) {front back : List Nat}
    (hlist : lists c = front ++ id :: back) :
    ∃ d', d.unlink c front.getLast? id = .ok d' ∧
      d'.Spells (Function.update lists c (front ++ back)) ∧ d.SameItems d' := by
  have hmem : id ∈ lists c := by simp [hlist]
  have hid : id < d.capacity := h.lt_capacity hc hmem
  obtain ⟨e, hentry, he, _⟩ := entry_of_lt hid
  have hlink : link d.entries id = some e.next := link_eq_some_iff.2 ⟨e, he, rfl⟩
  have hout : id ∉ front ++ back := by
    obtain ⟨hfront, hback⟩ := h.not_mem_around hc hlist
    exact fun hx => (List.mem_append.1 hx).elim hfront hback
  -- Once its neighbours pass it by, `id` is on no chain and its link can go.
  have hcut : ∀ d₁ : Directory, d₁.Spells (Function.update lists c (front ++ back)) →
      d.SameItems d₁ → ∃ d', d₁.relink id none = .ok d' ∧
        d'.Spells (Function.update lists c (front ++ back)) ∧ d.SameItems d' := by
    intro d₁ h₁ hsame
    have hfree := h.unlisted_update hc hmem hout hsame.binCount_eq
    exact ⟨_, relink_eq (hsame.capacity_eq ▸ hid) none, h₁.setLink hfree none,
      hsame.trans (sameItems_setLink ..)⟩
  rcases List.eq_nil_or_concat front with rfl | ⟨ahead, prev, hsnoc⟩
  · obtain ⟨d₁, hset, h₁, hsame⟩ := h.skip_head_spec hc hlist hlink
    obtain ⟨d', hrelink, hspells, hsame'⟩ := hcut d₁ h₁ hsame
    refine ⟨d', ?_, hspells, hsame'⟩
    simp only [unlink, hentry, ok_bind, List.getLast?_nil, hset, hrelink]
  · rw [List.concat_eq_append] at hsnoc
    subst hsnoc
    obtain ⟨d₁, hskip, h₁, hsame⟩ := h.skip_spec hc hlist hlink
    obtain ⟨d', hrelink, hspells, hsame'⟩ := hcut d₁ h₁ hsame
    refine ⟨d', ?_, hspells, hsame'⟩
    simp only [unlink, hentry, ok_bind, List.getLast?_append_cons, List.getLast?_singleton,
      hskip, hrelink]

/-! ## The spare chain -/

theorem claim_nil (h : d.Spells lists) (hnil : lists d.binCount = []) :
    d.claim = .ok (none, d) := by
  have hleads := h.leads d.binCount (Nat.le_refl _)
  rw [hnil, headOf_spare] at hleads
  have hspare : d.spare = none := hleads
  simp only [claim, hspare]
  rfl

theorem claim_cons (h : d.Spells lists) {rest : List Nat}
    (hlist : lists d.binCount = id :: rest) :
    ∃ d', d.claim = .ok (some id, d') ∧ d'.Spells (Function.update lists d.binCount rest) ∧
      d.SameItems d' := by
  have hc : d.binCount ≤ d.binCount := Nat.le_refl _
  have hleads := h.leads d.binCount hc
  rw [hlist, headOf_spare] at hleads
  -- Claiming is unlinking the head of the spare chain.
  obtain ⟨d', hunlink, hspells, hsame⟩ := h.unlink_spec hc
    (show lists d.binCount = [] ++ id :: rest from hlist)
  refine ⟨d', ?_, hspells, hsame⟩
  have hid : id < d.capacity := h.lt_capacity hc (by simp [hlist])
  obtain ⟨e, hentry, _⟩ := entry_of_lt hid
  simp only [unlink, hentry, ok_bind, List.getLast?_nil, setHead, Nat.lt_irrefl, if_false,
    if_true] at hunlink
  simp only [claim, hleads.1, hentry, ok_bind, hunlink]
  rfl

theorem retire_spec (h : d.Spells lists) (hid : id < d.capacity) (hfree : d.Unlisted lists id) :
    ∃ d', d.retire id = .ok d' ∧
      d'.Spells (Function.update lists d.binCount (id :: lists d.binCount)) ∧
      d.SameItems d' := by
  have hc : d.binCount ≤ d.binCount := Nat.le_refl _
  have h₁ := h.setLink hfree d.spare
  have hlink : link (BlockCache.setLink d.entries id d.spare) id = some d.spare :=
    link_setLink_self hid
  have hleads : Leads (BlockCache.setLink d.entries id d.spare)
      (headOf { d with entries := BlockCache.setLink d.entries id d.spare } d.binCount)
      (lists d.binCount) none := h₁.leads d.binCount hc
  rw [show headOf { d with entries := BlockCache.setLink d.entries id d.spare } d.binCount = d.spare
    from headOf_spare _] at hleads
  refine ⟨{ d with entries := BlockCache.setLink d.entries id d.spare, spare := some id }, ?_, ?_,
    ⟨rfl, size_setLink .., itemAt_setLink ..⟩⟩
  · simp only [retire, relink_eq hid, ok_bind]
    rfl
  · -- Only the head of the spare chain has changed since the entry was linked to the old one.
    refine h₁.replace rfl ?_ ?_ (fun _ _ _ _ _ => rfl) ?_
    · exact ⟨headOf_spare _, d.spare, hlink, hleads⟩
    · intro c' hne hc'
      have hlt : c' < d.bins.size := Nat.lt_of_le_of_ne hc' hne
      simp only [headOf, binCount, hlt, if_true]
    · intro x hx c' hc' hxc'
      rcases List.mem_cons.1 hx with rfl | hx
      · exact absurd hxc' (hfree c' hc')
      · exact h.apart c' hc' d.binCount hc x hxc' hx

end Spells
end Directory
end BlockCache

import BlockCache.Proofs.Directory.Victim
import Mathlib.Data.List.Nodup

/-!
# Rows — all entries of the bins, and where they go

`rows lists n` puts the lists of the first `n` chains in a row. What a change of one list does to
the whole row is counted (`countP_rows_update`), so that "exactly once" stays arithmetic. The file
also has the two changes that a directory goes through as a whole: it starts with all entries on the
spare chain, and an entry moves from its bin to the spare chain.
-/

namespace BlockCache

variable {lists : Nat → List Nat} {n b c id : Nat}

/-- The entries of the first `n` chains, chain by chain. -/
def rows (lists : Nat → List Nat) (n : Nat) : List Nat :=
  (List.range n).flatMap lists

theorem mem_rows : id ∈ rows lists n ↔ ∃ c < n, id ∈ lists c := by
  simp [rows]

theorem mem_rows_filter {keep : Nat → Prop} [DecidablePred keep] :
    id ∈ rows (fun b => (lists b).filter keep) n ↔ id ∈ rows lists n ∧ keep id := by
  simp only [mem_rows, List.mem_filter, decide_eq_true_eq, ← and_assoc, exists_and_right]

theorem rows_congr {lists' : Nat → List Nat} (h : ∀ b < n, lists' b = lists b) :
    rows lists' n = rows lists n :=
  List.flatMap_congr fun b hb => h b (List.mem_range.1 hb)

theorem rows_succ (lists : Nat → List Nat) (n : Nat) :
    rows lists (n + 1) = rows lists n ++ lists n := by
  simp [rows, List.range_succ]

theorem rows_update_of_le {l : List Nat} (h : n ≤ c) :
    rows (Function.update lists c l) n = rows lists n := by
  induction n with
  | zero => rfl
  | succ n ih =>
      rw [rows_succ, rows_succ, ih (Nat.le_of_succ_le h), Function.update_of_ne (by omega)]

theorem countP_rows_update (lists : Nat → List Nat) (p : Nat → Bool) (l : List Nat)
    (h : c < n) :
    (rows (Function.update lists c l) n).countP p + (lists c).countP p =
      (rows lists n).countP p + l.countP p := by
  induction n with
  | zero => omega
  | succ n ih =>
      simp only [rows_succ, List.countP_append]
      -- The changed list is in the rows before the last one, or it is the last one.
      rcases Nat.lt_or_eq_of_le (Nat.le_of_lt_succ h) with hlt | rfl
      · rw [Function.update_of_ne (by omega)]
        have hrest := ih hlt
        omega
      · rw [rows_update_of_le (Nat.le_refl _), Function.update_self]
        omega

/-! ## From a bin to the spare chain -/

/-- The entry `id` of the chain `b` becomes the first of the spare chain, whose number is `n`. -/
def moveToSpare (lists : Nat → List Nat) (n b id : Nat) : Nat → List Nat :=
  Function.update (Function.update lists b ((lists b).erase id)) n (id :: lists n)

theorem moveToSpare_self : moveToSpare lists n b id n = id :: lists n :=
  Function.update_self ..

theorem countP_rows_moveToSpare (lists : Nat → List Nat) (p : Nat → Bool) (hb : b < n)
    (hid : id ∈ lists b) :
    (rows (moveToSpare lists n b id) n).countP p + [id].countP p = (rows lists n).countP p := by
  have hperm := (List.perm_cons_erase hid).countP_eq p
  have hcount := countP_rows_update lists p ((lists b).erase id) hb
  rw [moveToSpare, rows_update_of_le (Nat.le_refl _)]
  simp only [List.countP_cons, List.countP_nil] at hperm ⊢
  omega

theorem length_rows_moveToSpare (hb : b < n) (hid : id ∈ lists b) :
    (rows (moveToSpare lists n b id) n).length + 1 = (rows lists n).length := by
  have hcount := countP_rows_moveToSpare lists (fun _ => true) hb hid
  simpa using hcount

theorem countP_rows_succ_moveToSpare (lists : Nat → List Nat) (p : Nat → Bool) (hb : b < n)
    (hid : id ∈ lists b) :
    (rows (moveToSpare lists n b id) (n + 1)).countP p = (rows lists (n + 1)).countP p := by
  have hcount := countP_rows_moveToSpare lists p hb hid
  rw [rows_succ, rows_succ, List.countP_append, List.countP_append, moveToSpare_self]
  simp only [List.countP_cons, List.countP_nil] at hcount ⊢
  omega

/-! ## To the end of a bin -/

def pushTo (lists : Nat → List Nat) (b id : Nat) : Nat → List Nat :=
  Function.update lists b (lists b ++ [id])

theorem mem_pushTo {x : Nat} : x ∈ pushTo lists b id c ↔ x ∈ lists c ∨ c = b ∧ x = id := by
  rw [pushTo]
  by_cases hc : c = b
  · subst hc
    rw [Function.update_self, List.mem_append, List.mem_singleton]
    exact or_congr_right (iff_and_self.2 fun _ => rfl)
  · rw [Function.update_of_ne hc]
    exact (or_iff_left fun h => hc h.1).symm

theorem countP_rows_pushTo (lists : Nat → List Nat) (id : Nat) (p : Nat → Bool) (hb : b < n) :
    (rows (pushTo lists b id) n).countP p = (rows lists n).countP p + [id].countP p := by
  have hupdate := countP_rows_update lists p (lists b ++ [id]) hb
  rw [List.countP_append] at hupdate
  rw [pushTo]
  omega

theorem count_rows_pushTo (hb : b < n) {x : Nat} :
    (rows (pushTo lists b id) n).count x =
      (rows lists n).count x + if id == x then 1 else 0 := by
  rw [← List.count_singleton]
  exact countP_rows_pushTo lists id (· == x) hb

theorem mem_rows_pushTo (hb : b < n) {x : Nat} :
    x ∈ rows (pushTo lists b id) n ↔ x ∈ rows lists n ∨ x = id := by
  simp only [mem_rows, mem_pushTo]
  constructor
  · rintro ⟨c, hc, hx | ⟨_, rfl⟩⟩
    · exact Or.inl ⟨c, hc, hx⟩
    · exact Or.inr rfl
  · rintro (⟨c, hc, hx⟩ | rfl)
    · exact ⟨c, hc, Or.inl hx⟩
    · exact ⟨b, hb, Or.inr ⟨rfl, rfl⟩⟩

namespace Directory

variable {d d' : Directory}

namespace Spells

theorem rows_nodup (h : d.Spells lists) (hn : n ≤ d.binCount + 1) : (rows lists n).Nodup := by
  rw [rows, List.nodup_flatMap]
  -- No chain repeats an entry, and no two chains share one.
  refine ⟨fun c hc => h.nodup (by rw [List.mem_range] at hc; omega), ?_⟩
  refine List.nodup_range.imp_of_mem fun {a b} ha hb hne => ?_
  rw [List.mem_range] at ha hb
  exact fun id hida hidb => hne (h.apart a (by omega) b (by omega) id hida hidb)

theorem length_rows_le (h : d.Spells lists) (hn : n ≤ d.binCount + 1) :
    (rows lists n).length ≤ d.capacity := by
  refine length_le_of_nodup_of_lt (h.rows_nodup hn) fun id hid => ?_
  rcases mem_rows.1 hid with ⟨c, hc, hmem⟩
  exact h.lt_capacity (by omega) hmem

/-- The bins lose the entry that moves, and keep their order. -/
theorem moveToSpare_of_lt (h : d.Spells lists) (hb : b < d.binCount) (hid : id ∈ lists b)
    (hc : c < d.binCount) :
    moveToSpare lists d.binCount b id c = (lists c).filter (· ≠ id) := by
  rw [moveToSpare, Function.update_of_ne (Nat.ne_of_lt hc)]
  rcases eq_or_ne c b with rfl | hne
  · rw [Function.update_self, (h.nodup (Nat.le_of_lt hc)).erase_eq_filter]
    exact List.filter_congr fun x _ => Bool.eq_iff_iff.2 (by simp)
  · -- No other bin had the entry, so there is nothing to leave out.
    rw [Function.update_of_ne hne, eq_comm, List.filter_eq_self]
    intro x hx
    apply decide_eq_true
    rintro rfl
    exact hne (h.apart c (Nat.le_of_lt hc) b (Nat.le_of_lt hb) x hx hid)

/-- Unlinking an entry and putting it in front of the spare chain. -/
theorem unlink_retire (h : d.Spells lists) (hb : b < d.binCount) {front back : List Nat}
    (hlist : lists b = front ++ id :: back) :
    ∃ d₁ d', d.unlink b front.getLast? id = .ok d₁ ∧ d₁.retire id = .ok d' ∧
      d'.Spells (moveToSpare lists d.binCount b id) ∧ d.SameItems d' := by
  have hb' := Nat.le_of_lt hb
  have hmem : id ∈ lists b := by simp [hlist]
  have hid : id < d.capacity := h.lt_capacity hb' hmem
  obtain ⟨hfront, hback⟩ := h.not_mem_around hb' hlist
  have herase : (lists b).erase id = front ++ back := by
    rw [hlist, List.erase_append_right _ hfront, List.erase_cons_head]
  obtain ⟨d₁, hunlink, h₁, hsame⟩ := h.unlink_spec hb' hlist
  have hfree : d₁.Unlisted (Function.update lists b (front ++ back)) id :=
    h.unlisted_update hb' hmem (fun hx => (List.mem_append.1 hx).elim hfront hback)
      hsame.binCount_eq
  obtain ⟨d', hretire, h', hsame'⟩ := h₁.retire_spec (hsame.capacity_eq ▸ hid) hfree
  refine ⟨d₁, d', hunlink, hretire, ?_, hsame.trans hsame'⟩
  rw [hsame.binCount_eq, Function.update_of_ne (by omega)] at h'
  rw [moveToSpare, herase]
  exact h'

end Spells

/-! ## A directory without items -/

/-- The lists of a directory with every bin empty and every entry spare. -/
def spareLists (bins entries c : Nat) : List Nat :=
  if c = bins then List.range entries else []

theorem leads_threaded (entries : Nat) :
    Leads (threaded entries) (firstOf entries) (List.range entries) none := by
  -- From the entry `first` on, by induction on how many follow.
  have hfrom : ∀ rest first, first + rest = entries →
      Leads (threaded entries) (if first < entries then some first else none)
        (List.range' first rest) none := by
    intro rest
    induction rest with
    | zero =>
        intro first hfirst
        rw [if_neg (by omega)]
        rfl
    | succ rest ih =>
        intro first hfirst
        have hlt : first < entries := by omega
        rw [if_pos hlt, List.range'_succ]
        refine ⟨rfl, if first + 1 < entries then some (first + 1) else none, ?_,
          ih (first + 1) (by omega)⟩
        simp [link, threaded, hlt]
  rw [List.range_eq_range']
  exact hfrom entries 0 (Nat.zero_add _)

theorem spells_spareLists {bins entries : Nat} (hd : d = ⟨Array.replicate bins none,
    firstOf entries, threaded entries⟩) : d.Spells (spareLists bins entries) := by
  subst hd
  have hbins : binCount ⟨Array.replicate bins none, firstOf entries, threaded entries⟩ = bins :=
    Array.size_replicate
  constructor
  · intro c hc
    rw [hbins] at hc
    rcases Nat.lt_or_eq_of_le hc with hlt | rfl
    · have hempty : spareLists bins entries c = [] := if_neg (Nat.ne_of_lt hlt)
      rw [hempty]
      simp [Leads, headOf, binCount, hlt]
    · have hall : spareLists c entries c = List.range entries := if_pos rfl
      rw [hall]
      simpa [headOf, binCount] using leads_threaded entries
  · -- Only one of the lists has entries at all.
    intro a _ b _ id hida hidb
    simp only [spareLists] at hida hidb
    split_ifs at hida hidb with ha hb
    · exact ha.trans hb.symm
    · simp at hidb
    · simp at hida
    · simp at hida

theorem capacity_spare {bins : Array (Option Nat)} {spare : Option Nat} {entries : Nat} :
    capacity ⟨bins, spare, threaded entries⟩ = entries :=
  Array.size_ofFn

theorem rows_spareLists {bins entries : Nat} : rows (spareLists bins entries) bins = [] := by
  rw [rows, List.flatMap_eq_nil_iff]
  intro c hc
  exact if_neg (Nat.ne_of_lt (List.mem_range.1 hc))

/-- A new directory has every bin empty and every entry spare, and few enough entries to number. -/
theorem create_eq_ok {entries bins : Nat} (h : create entries bins = .ok d) :
    d = ⟨Array.replicate bins none, firstOf entries, threaded entries⟩ ∧
      entries < Word.limit := by
  obtain ⟨table, htable, h⟩ := eq_ok_of_bind h
  obtain ⟨heads, hheads, h⟩ := eq_ok_of_bind h
  cases h
  have htable := eq_ok_of_mapError htable
  simp only [reserveEntries] at htable
  split_ifs at htable with hmany hroom
  cases htable
  simp only [reserveBins] at hheads
  split_ifs at hheads with hpower hroom'
  · cases hheads
    have hlimit : maxEntries < Word.limit := by decide
    exact ⟨rfl, Nat.lt_of_le_of_lt (Nat.not_lt.1 hmany) hlimit⟩
  · cases hchecked : Word.checked ((bins + 1) * Footprint.head) with
    | ok bytes => simp [hchecked] at hheads
    | error f => simp [hchecked] at hheads

/-! ## The victim -/

/-- `v` heads its bin, and is the least of the entries that do, by time and then by bin. -/
structure Foremost (d : Directory) (lists : Nat → List Nat) (v : Candidate) : Prop where
  bin_lt : v.bin < d.binCount
  head : ∃ tail, lists v.bin = v.id :: tail
  time_eq : v.time = (d.item v.id).time
  least : ∀ b < d.binCount, ∀ id tail, lists b = id :: tail → v.Le ⟨b, id, (d.item id).time⟩

/-- Only the lists of the bins and what the entries hold matter. -/
theorem Foremost.congr {lists' : Nat → List Nat} {v : Candidate} (h : d.Foremost lists v)
    (hsame : d.SameItems d') (hlists : ∀ b < d.binCount, lists' b = lists b) :
    d'.Foremost lists' v where
  bin_lt := hsame.binCount_eq ▸ h.bin_lt
  head := by
    rw [hlists v.bin h.bin_lt]
    exact h.head
  time_eq := by
    rw [hsame.item_eq]
    exact h.time_eq
  least := by
    rw [hsame.binCount_eq, hsame.item_eq]
    intro b hb id tail hlist
    exact h.least b hb id tail (hlists b hb ▸ hlist)

theorem Foremost.unique {v w : Candidate} (hv : d.Foremost lists v) (hw : d.Foremost lists w) :
    v = w := by
  obtain ⟨tail, hlist⟩ := hv.head
  obtain ⟨tail', hlist'⟩ := hw.head
  have hle := hv.least w.bin hw.bin_lt w.id tail' hlist'
  have hle' := hw.least v.bin hv.bin_lt v.id tail hlist
  rw [← hw.time_eq] at hle
  rw [← hv.time_eq] at hle'
  obtain ⟨hbin, htime⟩ := hle.antisymm hle'
  rw [hbin, hlist'] at hlist
  obtain ⟨hid, _⟩ := List.cons.inj hlist
  cases v
  cases w
  simp_all

/-- The victim is the foremost entry, and there is one if any bin is occupied. -/
theorem Spells.victim_spec (h : d.Spells lists) :
    (d.victim = .ok none ∧ rows lists d.binCount = []) ∨
      ∃ v, d.victim = .ok (some v) ∧ d.Foremost lists v := by
  have hheadOf : ∀ b < d.binCount, d.headOf b = (lists b).head? := fun b hb =>
    (h.leads b (Nat.le_of_lt hb)).head?_eq.symm
  have hvalid : d.ValidHeads := by
    intro b hb id hhead
    rw [hheadOf b hb] at hhead
    exact h.lt_capacity (Nat.le_of_lt hb) (List.mem_of_head? hhead)
  rcases victim_cases hvalid with ⟨heq, hnone⟩ | ⟨v, heq, hbin, hhead, htime, hleast⟩
  · refine Or.inl ⟨heq, ?_⟩
    rw [rows, List.flatMap_eq_nil_iff]
    intro b hb
    rw [List.mem_range] at hb
    rw [← List.head?_eq_none_iff, ← hheadOf b hb]
    exact hnone b hb
  · refine Or.inr ⟨v, heq, hbin, ?_, htime, fun b hb id tail hlist => ?_⟩
    · rw [hheadOf v.bin hbin] at hhead
      exact List.head?_eq_some_iff.1 hhead
    · apply hleast b hb
      rw [hheadOf b hb, hlist]
      rfl

end Directory
end BlockCache

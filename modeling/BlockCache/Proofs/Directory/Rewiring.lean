import BlockCache.Proofs.Directory.Spells

/-!
# Rewiring — operations on links as operations on lists

* `d.Rewires lists c ids d'` — `d'` has the chains of `d`, but for the chain `c`, which is `ids`.

Looking for a key, appending, unlinking, and taking from or adding to the spare chain write one or
two links or heads. Where all chains end and no two share an entry, no other chain passes through
these, so that each operation is the one on lists of the same name, with all other lists and all
that the entries hold left alone (`Spells.links_refine_lists`).
-/

namespace BlockCache
namespace Directory

variable {d d' : Directory} {lists : Nat → List Nat} {c id : Nat} {key : UInt32}

/-- `d'` differs from `d` in links and heads alone, and it has the same chains but for `c`. -/
structure Rewires (d : Directory) (lists : Nat → List Nat) (c : Nat) (ids : List Nat)
    (d' : Directory) : Prop where
  spells : d'.Spells (Function.update lists c ids)
  same : d.SameItems d'

namespace Rewires

variable {ids : List Nat}

theorem chain_self (h : d.Rewires lists c ids d') (hc : c ≤ d.binCount) : d'.chain c = .ok ids := by
  rw [h.spells.chain_eq (h.same.binCount_eq ▸ hc), Function.update_self]

theorem chain_of_ne (h : d.Rewires lists c ids d') {c' : Nat} (hc' : c' ≤ d.binCount)
    (hne : c' ≠ c) : d'.chain c' = .ok (lists c') := by
  rw [h.spells.chain_eq (h.same.binCount_eq ▸ hc'), Function.update_of_ne hne]

end Rewires

namespace Spells

/-- The first entry with the key is found in the bin of the key, if there is one. -/
theorem find_cases (h : d.Spells lists) (hbin : d.binOf key ≤ d.binCount) :
    (d.find key = .ok none ∧ ∀ x ∈ lists (d.binOf key), (d.item x).key ≠ key) ∨
      ∃ front id back, lists (d.binOf key) = front ++ id :: back ∧
        (∀ x ∈ front, (d.item x).key ≠ key) ∧ (d.item id).key = key ∧
        d.find key = .ok (some ⟨d.binOf key, front.getLast?, id⟩) := by
  cases hfirst : (lists (d.binOf key)).find? fun x => (d.item x).key == key with
  | none =>
      have hother : ∀ x ∈ lists (d.binOf key), (d.item x).key ≠ key := by
        simpa using hfirst
      exact Or.inl ⟨h.find_missed hbin hother, hother⟩
  | some id =>
      obtain ⟨hkey, front, back, hlist, hfront⟩ := List.find?_eq_some_iff_append.1 hfirst
      have hother : ∀ x ∈ front, (d.item x).key ≠ key := by
        simpa using hfront
      have hfound := eq_of_beq hkey
      exact Or.inr ⟨front, id, back, hlist, hother, hfound,
        h.find_found hbin hlist hother hfound⟩

/-- An entry that is unlinked is on no chain from then on. -/
theorem unlink_rewires (h : d.Spells lists) (hc : c ≤ d.binCount) {front back : List Nat}
    (hlist : lists c = front ++ id :: back) :
    ∃ d', d.unlink c front.getLast? id = .ok d' ∧ d.Rewires lists c (front ++ back) d' ∧
      d'.Unlisted (Function.update lists c (front ++ back)) id := by
  obtain ⟨d', hunlink, hspells, hsame⟩ := h.unlink_spec hc hlist
  obtain ⟨hfront, hback⟩ := h.not_mem_around hc hlist
  refine ⟨d', hunlink, ⟨hspells, hsame⟩, ?_⟩
  exact h.unlisted_update hc (by simp [hlist])
    (fun hmem => (List.mem_append.1 hmem).elim hfront hback) hsame.binCount_eq

/-- So is an entry that is claimed. -/
theorem claim_rewires (h : d.Spells lists) {rest : List Nat}
    (hlist : lists d.binCount = id :: rest) :
    ∃ d', d.claim = .ok (some id, d') ∧ d.Rewires lists d.binCount rest d' ∧
      d'.Unlisted (Function.update lists d.binCount rest) id := by
  have hc : d.binCount ≤ d.binCount := Nat.le_refl _
  obtain ⟨d', hclaim, hspells, hsame⟩ := h.claim_cons hlist
  have hout : id ∉ rest := by
    have hnodup := h.nodup hc
    rw [hlist] at hnodup
    exact (List.nodup_cons.1 hnodup).1
  exact ⟨d', hclaim, ⟨hspells, hsame⟩,
    h.unlisted_update hc (by simp [hlist]) hout hsame.binCount_eq⟩

/-- Every operation on the links does to one list what its name says, and nothing else: a search
reports the first entry with the key in the bin of the key, together with the entry in front of it,
and whoever unlinks an entry with the one in front of it takes out that entry alone; an entry that
is on no chain can be appended to any chain or put in front of the spare chain; and the spare chain
gives its first entry away. -/
theorem links_refine_lists (h : d.Spells lists) (hbins : 0 < d.binCount) :
    (∀ key,
      (d.find key = .ok none ∧ ∀ x ∈ lists (d.binOf key), (d.item x).key ≠ key) ∨
      ∃ front id back, lists (d.binOf key) = front ++ id :: back ∧
        (∀ x ∈ front, (d.item x).key ≠ key) ∧ (d.item id).key = key ∧
        d.find key = .ok (some ⟨d.binOf key, front.getLast?, id⟩) ∧
        ∃ d', d.unlink (d.binOf key) front.getLast? id = .ok d' ∧
          d.Rewires lists (d.binOf key) (front ++ back) d') ∧
    (∀ c ≤ d.binCount, ∀ front id back, lists c = front ++ id :: back →
      ∃ d', d.unlink c front.getLast? id = .ok d' ∧ d.Rewires lists c (front ++ back) d' ∧
        d'.Unlisted (Function.update lists c (front ++ back)) id) ∧
    (∀ c ≤ d.binCount, ∀ id < d.capacity, d.Unlisted lists id →
      ∃ d', d.append c id = .ok d' ∧ d.Rewires lists c (lists c ++ [id]) d') ∧
    (∀ id < d.capacity, d.Unlisted lists id →
      ∃ d', d.retire id = .ok d' ∧
        d.Rewires lists d.binCount (id :: lists d.binCount) d') ∧
    (lists d.binCount = [] → d.claim = .ok (none, d)) ∧
    (∀ id rest, lists d.binCount = id :: rest →
      ∃ d', d.claim = .ok (some id, d') ∧ d.Rewires lists d.binCount rest d' ∧
        d'.Unlisted (Function.update lists d.binCount rest) id) := by
  refine ⟨fun key => ?_, fun c hc front id back hlist => h.unlink_rewires hc hlist,
    fun c hc id hid hfree => ?_, fun id hid hfree => ?_, h.claim_nil,
    fun id rest hlist => h.claim_rewires hlist⟩
  · have hbin : d.binOf key ≤ d.binCount := Nat.le_of_lt (Nat.mod_lt _ hbins)
    rcases h.find_cases hbin with hmissed | ⟨front, id, back, hlist, hother, hkey, hfind⟩
    · exact Or.inl hmissed
    · obtain ⟨d', hunlink, hrewires, _⟩ := h.unlink_rewires hbin hlist
      exact Or.inr ⟨front, id, back, hlist, hother, hkey, hfind, d', hunlink, hrewires⟩
  · obtain ⟨d', happend, hspells, hsame⟩ := h.append_spec hc hid hfree
    exact ⟨d', happend, hspells, hsame⟩
  · obtain ⟨d', hretire, hspells, hsame⟩ := h.retire_spec hid hfree
    exact ⟨d', hretire, hspells, hsame⟩

/-- The entry 2 is linked behind the entry 0, the entry 1 is spare, and the entry 3 is loose. -/
def threeLinked : Directory :=
  ⟨#[some 0], some 1, #[{ next := some 2, key := 5 }, {}, { key := 9 }, { key := 7 }]⟩

def threeLists (c : Nat) : List Nat :=
  if c = 0 then [0, 2] else [1]

theorem spells_threeLinked : threeLinked.Spells threeLists where
  leads := by
    intro c hc
    obtain rfl | rfl : c = 0 ∨ c = 1 := Nat.le_one_iff_eq_zero_or_eq_one.1 hc
    · exact ⟨rfl, some 2, rfl, rfl, none, rfl, rfl⟩
    · exact ⟨rfl, none, rfl, rfl⟩
  apart := by decide

/-- The key of the loose entry is not found. The entry of another key is, and is unlinked; the loose
one is appended or made spare, and the spare one is claimed. -/
theorem links_refine_lists_three :
    threeLinked.find 7 = .ok none ∧ threeLinked.find 9 = .ok (some ⟨0, some 0, 2⟩) ∧
    (∃ d', threeLinked.unlink 0 (some 0) 2 = .ok d' ∧ d'.chain 0 = .ok [0]) ∧
    (∃ d', threeLinked.append 0 3 = .ok d' ∧ d'.chain 0 = .ok [0, 2, 3] ∧
      d'.chain 1 = .ok [1]) ∧
    (∃ d', threeLinked.retire 3 = .ok d' ∧ d'.chain 1 = .ok [3, 1]) ∧
    ∃ d', threeLinked.claim = .ok (some 1, d') ∧ d'.chain 1 = .ok [] := by
  obtain ⟨hfind, hunlink, happend, hretire, -, hclaim⟩ :=
    links_refine_lists spells_threeLinked (by decide)
  have hloose : threeLinked.Unlisted threeLists 3 := by
    show ∀ c ≤ 1, 3 ∉ threeLists c
    decide
  have hkeys : ∀ x ∈ threeLists 0, (threeLinked.item x).key ≠ 7 := by decide
  refine ⟨?_, rfl, ?_, ?_, ?_, ?_⟩
  · rcases hfind 7 with ⟨hmissed, _⟩ | ⟨front, id, back, hlist, _, hkey, _⟩
    · exact hmissed
    · have hmem : id ∈ threeLists 0 := by
        rw [show threeLists 0 = front ++ id :: back from hlist]
        exact List.mem_append_right _ (List.mem_cons_self ..)
      exact absurd hkey (hkeys id hmem)
  · obtain ⟨d', hok, hrewires, _⟩ := hunlink 0 (by decide) [0] 2 [] rfl
    exact ⟨d', hok, hrewires.chain_self (by decide)⟩
  · obtain ⟨d', hok, hrewires⟩ := happend 0 (by decide) 3 (by decide) hloose
    exact ⟨d', hok, hrewires.chain_self (by decide), hrewires.chain_of_ne (by decide) (by decide)⟩
  · obtain ⟨d', hok, hrewires⟩ := hretire 3 (by decide) hloose
    exact ⟨d', hok, hrewires.chain_self (by decide)⟩
  · obtain ⟨d', hok, hrewires, _⟩ := hclaim 1 [] rfl
    exact ⟨d', hok, hrewires.chain_self (by decide)⟩

end Spells
end Directory
end BlockCache

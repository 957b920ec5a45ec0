import BlockCache.Space.Extent
import Mathlib.Data.Set.Basic

/-!
# Coverage — which bytes a list of extents covers

An extent is looked at as the set of its bytes. This file defines:

* `coverage l x` — how many extents of `l` cover the byte `x`, so that "exactly once" is an equation
  between numbers, and extents that are joined or cut keep the sum of their coverage;
* `MaximalRun F e` — `e` is a run of bytes of `F` that cannot be made longer;
* `RunsOf F l` — `l` lists exactly the maximal runs of `F`, in ascending order.

A list of runs that keep apart is determined by the bytes it covers (`RunsOf.unique`).
-/

namespace BlockCache
namespace Extent

/-! ## Bytes of an extent -/

instance : Membership Nat Extent where
  mem e x := e.offset ≤ x ∧ x < e.stop

theorem mem_iff {e : Extent} {x : Nat} : x ∈ e ↔ e.offset ≤ x ∧ x < e.stop :=
  Iff.rfl

instance (e : Extent) (x : Nat) : Decidable (x ∈ e) :=
  inferInstanceAs (Decidable (e.offset ≤ x ∧ x < e.stop))

/-- `a` lies below `b`, and the two do not touch. -/
def Below (a b : Extent) : Prop :=
  a.stop < b.offset

theorem offset_le_stop (e : Extent) : e.offset ≤ e.stop :=
  Nat.le_add_right _ _

theorem offset_mem {e : Extent} (hpos : 0 < e.length) : e.offset ∈ e :=
  ⟨Nat.le_refl _, Nat.lt_add_of_pos_right hpos⟩

/-- Extents that share no byte lie on two sides of each other. -/
theorem sides_of_disjoint {a b : Extent} (ha : 0 < a.length) (hb : 0 < b.length)
    (h : ∀ x ∈ a, x ∉ b) : b.stop ≤ a.offset ∨ a.stop ≤ b.offset := by
  by_contra hcross
  push Not at hcross
  -- The larger of the two offsets would be a byte of both.
  have hshared : max b.offset a.offset ∈ a ∧ max b.offset a.offset ∈ b := by
    simp only [mem_iff, stop] at hcross ⊢
    omega
  exact h _ hshared.1 hshared.2

/-- Two extents of a list whose extents keep apart are the same or keep apart. -/
theorem below_or_below {l : List Extent} (hl : l.Pairwise Below) {a b : Extent} (ha : a ∈ l)
    (hb : b ∈ l) : a = b ∨ a.Below b ∨ b.Below a := by
  let Near : Extent → Extent → Prop := fun a b => a = b ∨ a.Below b ∨ b.Below a
  have hforth : l.Pairwise Near := hl.imp fun h => Or.inr (Or.inl h)
  have hback : l.Pairwise (flip Near) := hl.imp fun h => Or.inr (Or.inr h)
  exact List.Pairwise.forall_of_forall_of_flip (R := Near) (fun _ _ => Or.inl rfl) hforth hback
    ha hb

/-! ## Coverage of a list -/

/-- The number of extents that cover `x`. -/
def coverage (l : List Extent) (x : Nat) : Nat :=
  l.countP (x ∈ ·)

@[simp]
theorem coverage_nil (x : Nat) : coverage [] x = 0 :=
  rfl

theorem coverage_cons (e : Extent) (l : List Extent) (x : Nat) :
    coverage (e :: l) x = (if x ∈ e then 1 else 0) + coverage l x := by
  simp [coverage, List.countP_cons, Nat.add_comm]

theorem coverage_append (l m : List Extent) (x : Nat) :
    coverage (l ++ m) x = coverage l x + coverage m x :=
  List.countP_append

theorem coverage_pos_iff {l : List Extent} {x : Nat} : 0 < coverage l x ↔ ∃ e ∈ l, x ∈ e := by
  simp [coverage, List.countP_pos_iff]

/-- Joining two extents that touch leaves every byte as often covered as before. -/
theorem coverage_join {a c : Extent} (h : a.stop = c.offset) (l : List Extent) (x : Nat) :
    coverage (⟨a.offset, a.length + c.length⟩ :: l) x = coverage (a :: c :: l) x := by
  have hsplit : (if x ∈ (⟨a.offset, a.length + c.length⟩ : Extent) then 1 else 0) =
      (if x ∈ a then 1 else 0) + (if x ∈ c then 1 else 0) := by
    simp only [mem_iff, stop] at h ⊢
    split_ifs <;> omega
  simp only [coverage_cons, hsplit, Nat.add_assoc]

/-! ## Maximal runs -/

/-- `e` is a run of bytes of `F`, and the bytes next to its ends are not in `F`. -/
structure MaximalRun (F : Set Nat) (e : Extent) : Prop where
  nonempty : 0 < e.length
  inside : ∀ x ∈ e, x ∈ F
  noneAfter : e.stop ∉ F
  noneBefore : ∀ x, x + 1 = e.offset → x ∉ F

namespace MaximalRun

variable {F : Set Nat} {a b : Extent} {x : Nat}

theorem offset_le_of_mem (ha : MaximalRun F a) (hb : MaximalRun F b) (hxa : x ∈ a) (hxb : x ∈ b) :
    b.offset ≤ a.offset := by
  by_contra hlt
  rw [mem_iff] at hxa hxb
  -- The byte in front of `b` would lie in `a`.
  have hbefore : b.offset - 1 ∈ a := mem_iff.2 (by omega)
  exact hb.noneBefore (b.offset - 1) (by omega) (ha.inside _ hbefore)

theorem stop_le_of_mem (ha : MaximalRun F a) (hb : MaximalRun F b) (hxa : x ∈ a) (hxb : x ∈ b) :
    a.stop ≤ b.stop := by
  by_contra hlt
  rw [mem_iff] at hxa hxb
  have hafter : b.stop ∈ a := mem_iff.2 (by omega)
  exact hb.noneAfter (ha.inside _ hafter)

/-- Maximal runs that share a byte are the same. -/
theorem eq_of_mem (ha : MaximalRun F a) (hb : MaximalRun F b) (hxa : x ∈ a) (hxb : x ∈ b) :
    a = b := by
  have hoffset := Nat.le_antisymm (hb.offset_le_of_mem ha hxb hxa) (ha.offset_le_of_mem hb hxa hxb)
  have hstop := Nat.le_antisymm (ha.stop_le_of_mem hb hxa hxb) (hb.stop_le_of_mem ha hxb hxa)
  cases a
  cases b
  simp only [stop, mk.injEq] at hoffset hstop ⊢
  omega

end MaximalRun

/-- `l` lists the maximal runs of `F` in ascending order. -/
structure RunsOf (F : Set Nat) (l : List Extent) : Prop where
  ascending : l.Pairwise fun a b => a.offset < b.offset
  mem_iff : ∀ e, e ∈ l ↔ MaximalRun F e

/-- The same members in the same order make the same list. -/
theorem RunsOf.unique {F : Set Nat} {l m : List Extent} (hl : RunsOf F l) (hm : RunsOf F m) :
    l = m := by
  have hnodup : ∀ {k : List Extent}, RunsOf F k → k.Nodup := by
    intro k hk
    apply hk.ascending.imp
    rintro a _ hlt rfl
    exact Nat.lt_irrefl _ hlt
  have hperm : l.Perm m :=
    (List.perm_ext_iff_of_nodup (hnodup hl) (hnodup hm)).2 fun e => by
      rw [hl.mem_iff, hm.mem_iff]
  refine hperm.eq_of_pairwise ?_ hl.ascending hm.ascending
  intro a b _ _ hab hba
  exact absurd (Nat.lt_trans hab hba) (Nat.lt_irrefl _)

/-- Nonempty extents that keep apart are the maximal runs of the bytes they cover. -/
theorem runsOf_covered {l : List Extent} (hpos : ∀ e ∈ l, 0 < e.length) (hl : l.Pairwise Below) :
    RunsOf {x | 0 < coverage l x} l := by
  have hrun : ∀ e ∈ l, MaximalRun {x | 0 < coverage l x} e := by
    intro e he
    have hend := e.offset_le_stop
    refine ⟨hpos e he, fun x hx => coverage_pos_iff.2 ⟨e, he, hx⟩, ?_, ?_⟩
    -- A byte next to an end of `e` would belong to an extent that touches `e`.
    · intro hafter
      rcases coverage_pos_iff.1 hafter with ⟨b, hb, hmem⟩
      rw [mem_iff] at hmem
      rcases below_or_below hl he hb with rfl | hlt | hlt <;> unfold Below at * <;> omega
    · intro x hx hbefore
      rcases coverage_pos_iff.1 hbefore with ⟨b, hb, hmem⟩
      rw [mem_iff] at hmem
      rcases below_or_below hl he hb with rfl | hlt | hlt <;> unfold Below at * <;> omega
  refine ⟨hl.imp fun {a b} hab => Nat.lt_of_le_of_lt a.offset_le_stop hab, fun e => ⟨hrun e, ?_⟩⟩
  -- A maximal run shares its first byte with an extent of the list, so it is that extent.
  intro he
  obtain ⟨b, hb, hmem⟩ := coverage_pos_iff.1 (he.inside _ (offset_mem he.nonempty))
  rw [he.eq_of_mem (hrun b hb) (offset_mem he.nonempty) hmem]
  exact hb

end Extent
end BlockCache

import BlockCache.Proofs.Steps
import BlockCache.Report.Occupancy
import Mathlib.Algebra.Order.BigOperators.Group.List
import Mathlib.Algebra.Order.Group.Nat

/-!
# Occupancy — the figures of a list of chain lengths

A report counts the chains that are not empty, adds up their lengths and names the longest. For
every list of lengths these three figures bound each other: the chains that are not empty take an
entry each, and none of them takes more than the longest (`Occupancy.longest_add_occupied_le`,
`Occupancy.usedEntries_le_mul`).
-/

namespace BlockCache

/-! ## Lists of sizes -/

section Sizes

variable {l : List Nat} {m n : Nat}

theorem foldl_max_cons (n : Nat) (l : List Nat) : (n :: l).foldl max 0 = max n (l.foldl max 0) := by
  rw [List.foldl_cons, Nat.max_comm 0 n, ← @List.foldl_assoc Nat max]

theorem le_foldl_max (h : n ∈ l) : n ≤ l.foldl max 0 := by
  induction l with
  | nil => cases h
  | cons a l ih =>
      rw [foldl_max_cons]
      rcases List.mem_cons.1 h with rfl | h
      · exact Nat.le_max_left _ _
      · exact Nat.le_trans (ih h) (Nat.le_max_right _ _)

theorem sumOf_cons (n : Nat) (l : List Nat) : sumOf (n :: l) = n + sumOf l :=
  rfl

theorem foldl_max_le_sumOf (l : List Nat) : l.foldl max 0 ≤ sumOf l := by
  induction l with
  | nil => exact Nat.le_refl 0
  | cons n l ih =>
      rw [foldl_max_cons, sumOf_cons]
      omega

/-- Sizes are added up from below if none is less than `m`. -/
theorem length_mul_le_sumOf (h : ∀ n ∈ l, m ≤ n) : l.length * m ≤ sumOf l :=
  List.card_nsmul_le_sum l m h

/-- Only sizes that are not zero add to the sum. -/
theorem sumOf_le_mul_countP (h : ∀ n ∈ l, n ≤ m) : sumOf l ≤ m * l.countP (0 < ·) := by
  induction l with
  | nil => exact Nat.zero_le _
  | cons n l ih =>
      rw [List.forall_mem_cons] at h
      have hrest := ih h.2
      rw [sumOf_cons, List.countP_cons]
      rcases Nat.eq_zero_or_pos n with rfl | hpos
      · simpa using hrest
      · rw [if_pos (decide_eq_true hpos), Nat.mul_succ]
        omega

theorem countP_pos_le_sumOf (l : List Nat) : l.countP (0 < ·) ≤ sumOf l := by
  induction l with
  | nil => exact Nat.le_refl 0
  | cons n l ih =>
      rw [sumOf_cons, List.countP_cons]
      split_ifs with hpos
      · rw [decide_eq_true_eq] at hpos
        omega
      · omega

/-- Beside the largest size there is one for each of the other sizes that are not zero. -/
theorem foldl_max_add_countP_le (l : List Nat) :
    l.foldl max 0 + l.countP (0 < ·) ≤ sumOf l + 1 := by
  induction l with
  | nil => exact Nat.zero_le 1
  | cons n l ih =>
      have hcount := countP_pos_le_sumOf l
      rw [foldl_max_cons, sumOf_cons, List.countP_cons]
      split_ifs with hpos
      · rw [decide_eq_true_eq] at hpos
        omega
      · rw [decide_eq_true_eq] at hpos
        omega

end Sizes

/-! ## Chain lengths -/

namespace Occupancy

variable (o : Occupancy)

theorem occupiedBins_le : o.occupiedBins ≤ min o.binCount o.usedEntries :=
  Nat.le_min.2 ⟨List.countP_le_length, countP_pos_le_sumOf _⟩

/-- If a bin is occupied, the other occupied bins leave the rest of the entries to the longest
chain. -/
theorem longest_add_occupied_le : o.longestChain + o.occupiedBins ≤ o.usedEntries + 1 :=
  foldl_max_add_countP_le _

theorem usedEntries_le_mul : o.usedEntries ≤ o.longestChain * o.occupiedBins :=
  sumOf_le_mul_countP fun _ hn => le_foldl_max hn

end Occupancy
end BlockCache

import BlockCache.Directory.Basic
import BlockCache.Memory.Region
import BlockCache.Proofs.Steps
import BlockCache.Space.FreeList
import Mathlib.Algebra.Order.Group.Nat

/-!
# OutOfMemory — what a refused reservation reports

* `Limited grants` — a machine that refuses every reservation from `reservationLimit` on, and maybe
  smaller ones.

A store, a table of entries and a free list report exactly the bytes that they have asked for: no
argument that they accept takes more bytes than a word can count. The heads of the bins do so for
fewer than `2 ^ 61` bins. The bytes of more heads do not fit a word, and as their number is not cut
off, the refusal is a fault (`refusals_report_bytes`). No layout plans so many bins.
-/

namespace BlockCache

/-- What a machine grants that refuses all reservations from `reservationLimit` on. -/
def Limited (grants : Nat → Bool) : Prop :=
  ∀ bytes, reservationLimit ≤ bytes → grants bytes = false

variable {grants : Nat → Bool}

theorem limited_reservable : Limited reservable :=
  fun _ hbytes => decide_eq_false (Nat.not_lt.2 hbytes)

/-! ## Refusals -/

theorem Region.allocate_refused {length : Nat} (hrefused : grants length = false) :
    allocate length grants = .error (.outOfMemory (Word.saturate length)) := by
  simp only [allocate, hrefused, Bool.false_eq_true, if_false]

namespace FreeList

/-- The records of as many free blocks as can be apart take no more bytes than the store has. -/
theorem maxBlocks_mul_lt {storeLength : Nat} (hlt : storeLength < Word.limit)
    (hpos : 0 < storeLength) (hdvd : granule ∣ storeLength) :
    maxBlocks storeLength * Footprint.extent < Word.limit := by
  have hle : maxBlocks storeLength * Footprint.extent ≤ storeLength := by
    obtain ⟨n, rfl⟩ := hdvd
    simp only [maxBlocks, granule, Footprint.extent] at hpos ⊢
    omega
  exact Nat.lt_of_le_of_lt hle hlt

theorem create_eq {storeLength : Nat} (hpos : 0 < storeLength) (hdvd : granule ∣ storeLength) :
    create storeLength grants =
      if grants (maxBlocks storeLength * Footprint.extent) then
        .ok ⟨[⟨0, storeLength⟩], storeLength⟩
      else
        .error (.outOfMemory (Word.saturate (maxBlocks storeLength * Footprint.extent))) := by
  have hgood : ¬ (storeLength = 0 ∨ storeLength % granule ≠ 0) := by
    push Not
    exact ⟨Nat.ne_of_gt hpos, Nat.mod_eq_zero_of_dvd hdvd⟩
  simp only [create, if_neg hgood]

theorem create_refused {storeLength : Nat} (hpos : 0 < storeLength)
    (hdvd : granule ∣ storeLength)
    (hrefused : grants (maxBlocks storeLength * Footprint.extent) = false) :
    create storeLength grants =
      .error (.outOfMemory (Word.saturate (maxBlocks storeLength * Footprint.extent))) := by
  simp only [create_eq hpos hdvd, hrefused, Bool.false_eq_true, if_false]

end FreeList

namespace Directory

theorem entries_mul_lt {count : Nat} (hcount : count ≤ maxEntries) :
    count * Footprint.entry < Word.limit :=
  calc
    count * Footprint.entry ≤ maxEntries * Footprint.entry := Nat.mul_le_mul_right _ hcount
    _ < Word.limit := by decide

theorem reserveEntries_eq {count : Nat} (hcount : count ≤ maxEntries) :
    reserveEntries count grants =
      if grants (count * Footprint.entry) then .ok (threaded count)
      else .error (.outOfMemory (Word.saturate (count * Footprint.entry))) := by
  simp only [reserveEntries, if_neg (Nat.not_lt.2 hcount)]

theorem reserveEntries_refused {count : Nat} (hcount : count ≤ maxEntries)
    (hrefused : grants (count * Footprint.entry) = false) :
    reserveEntries count grants =
      .error (.outOfMemory (Word.saturate (count * Footprint.entry))) := by
  simp only [reserveEntries_eq hcount, hrefused, Bool.false_eq_true, if_false]

/-- With the head of the spare chain, the heads of `2 ^ 61` bins are too many for a word. -/
theorem heads_mul_lt_iff (k : Nat) : (2 ^ k + 1) * Footprint.head < Word.limit ↔ k < 61 := by
  have hlimit : Word.limit = 2 ^ 61 * Footprint.head := rfl
  rw [hlimit, Nat.mul_lt_mul_right (by decide)]
  constructor
  · intro hlt
    exact (Nat.pow_lt_pow_iff_right (by decide)).1 (Nat.lt_of_succ_lt hlt)
  · intro hk
    have hle : 2 ^ k ≤ 2 ^ 60 := Nat.pow_le_pow_right (by decide) (Nat.le_of_lt_succ hk)
    exact Nat.lt_of_le_of_lt (Nat.succ_le_succ hle) (by decide)

theorem reserveBins_eq {bins : Nat} (hpower : bins = Nat.pow 2 bins.log2) :
    reserveBins bins grants =
      if grants ((bins + 1) * Footprint.head) then .ok (Array.replicate bins none)
      else match Word.checked ((bins + 1) * Footprint.head) with
        | .ok bytes => .error (.error (.outOfMemory bytes))
        | .error f => .error (.fault f) :=
  if_neg (not_not_intro hpower)

theorem reserveBins_refused (k : Nat)
    (hrefused : grants ((2 ^ k + 1) * Footprint.head) = false) :
    reserveBins (2 ^ k) grants =
      if k < 61 then .error (.error (.outOfMemory ((2 ^ k + 1) * Footprint.head)))
      else .error (.fault .overflow) := by
  have hpower : 2 ^ k = Nat.pow 2 (2 ^ k).log2 := by
    rw [Nat.log2_two_pow]
    rfl
  simp only [reserveBins_eq hpower, hrefused, Bool.false_eq_true, if_false]
  split_ifs with hk
  · rw [Word.checked_of_lt ((heads_mul_lt_iff k).2 hk)]
  · rw [Word.checked_of_le (Nat.not_lt.1 (mt (heads_mul_lt_iff k).1 hk))]

end Directory

/-! ## Numbers of bytes -/

/-- When the machine refuses a reservation, a store, a table of entries and a free list report the
bytes that they have asked for, for every argument that they accept, and no number is too large for
a word. So do the heads of fewer than `2 ^ 61` bins. More heads are always refused, and that is not
reported, as their number of bytes overflows. -/
theorem refusals_report_bytes (h : Limited grants) :
    (∀ length < Word.limit, grants length = false →
      Region.allocate length grants = .error (.outOfMemory (min length (Word.limit - 1)))) ∧
    (∀ count ≤ Directory.maxEntries, grants (count * Footprint.entry) = false →
      count * Footprint.entry < Word.limit ∧ Directory.reserveEntries count grants =
        .error (.outOfMemory (min (count * Footprint.entry) (Word.limit - 1)))) ∧
    (∀ storeLength < Word.limit, 0 < storeLength → granule ∣ storeLength →
      grants ((storeLength / granule + 1) / 2 * granule) = false →
      (storeLength / granule + 1) / 2 * granule < Word.limit ∧
        FreeList.create storeLength grants = .error (.outOfMemory
          (min ((storeLength / granule + 1) / 2 * granule) (Word.limit - 1)))) ∧
    (∀ k < 61, grants ((2 ^ k + 1) * Footprint.head) = false →
      (2 ^ k + 1) * Footprint.head < Word.limit ∧ Directory.reserveBins (2 ^ k) grants =
        .error (.error (.outOfMemory (min ((2 ^ k + 1) * Footprint.head) (Word.limit - 1))))) ∧
    ∀ k, 61 ≤ k → Word.limit ≤ (2 ^ k + 1) * Footprint.head ∧
      Directory.reserveBins (2 ^ k) grants = .error (.fault .overflow) := by
  refine ⟨fun length _ hrefused => Region.allocate_refused hrefused,
    fun count hcount hrefused => ?_, fun storeLength hlt hpos hdvd hrefused => ?_,
    fun k hk hrefused => ?_, fun k hk => ?_⟩
  · exact ⟨Directory.entries_mul_lt hcount, Directory.reserveEntries_refused hcount hrefused⟩
  · exact ⟨FreeList.maxBlocks_mul_lt hlt hpos hdvd, FreeList.create_refused hpos hdvd hrefused⟩
  · have hlt := (Directory.heads_mul_lt_iff k).2 hk
    refine ⟨hlt, ?_⟩
    rw [Directory.reserveBins_refused k hrefused, if_pos hk,
      Nat.min_eq_left (Nat.le_sub_one_of_lt hlt)]
  · have hle := Nat.not_lt.1 (mt (Directory.heads_mul_lt_iff k).1 (Nat.not_lt.2 hk))
    -- A reservation that overflows a word is larger than any that is granted.
    have hlimit : reservationLimit ≤ Word.limit := by decide
    have hrefused := h _ (Nat.le_trans hlimit hle)
    exact ⟨hle, (Directory.reserveBins_refused k hrefused).trans (if_neg (Nat.not_lt.2 hk))⟩

/-- What a machine grants that has a gigabyte left. -/
def gigabyte (bytes : Nat) : Bool :=
  bytes ≤ 2 ^ 30

theorem limited_gigabyte : Limited gigabyte := by
  intro bytes hbytes
  have hlimit : reservationLimit = 2 ^ 47 := rfl
  exact decide_eq_false (by omega)

/-- Such a machine refuses a table of `2 ^ 25` entries and the heads of `2 ^ 27` bins. Both are
reported, and the heads of `2 ^ 61` bins are not. -/
theorem refusals_report_bytes_gigabyte :
    Region.allocate (2 ^ 30 + 1) gigabyte = .error (.outOfMemory 1073741825) ∧
      Directory.reserveEntries (2 ^ 25) gigabyte = .error (.outOfMemory 1610612736) ∧
      FreeList.create (2 ^ 31 + 16) gigabyte = .error (.outOfMemory 1073741840) ∧
      Directory.reserveBins (2 ^ 27) gigabyte = .error (.error (.outOfMemory 1073741832)) ∧
      Directory.reserveBins (2 ^ 61) gigabyte = .error (.fault .overflow) := by
  obtain ⟨hstore, hentries, hfree, hheads, hover⟩ := refusals_report_bytes limited_gigabyte
  exact ⟨hstore (2 ^ 30 + 1) (by decide) (by decide), (hentries (2 ^ 25) (by decide) (by decide)).2,
    (hfree (2 ^ 31 + 16) (by decide) (by decide) (by decide) (by decide)).2,
    (hheads 27 (by decide) (by decide)).2, (hover 61 (by decide)).2⟩

/-- The heads of `2 ^ 61` bins are refused without a report. -/
theorem reserveBins_overflows :
    2 ^ 61 < Word.limit ∧ reservable ((2 ^ 61 + 1) * Footprint.head) = false ∧
      Directory.reserveBins (2 ^ 61) = .error (.fault .overflow) ∧
      Directory.reserveBins (2 ^ 61) ≠ .error (.error (.outOfMemory
        (min ((2 ^ 61 + 1) * Footprint.head) (Word.limit - 1)))) := by
  have hrefused : reservable ((2 ^ 61 + 1) * Footprint.head) = false :=
    limited_reservable _ (by decide)
  have hfault : Directory.reserveBins (2 ^ 61) = .error (.fault .overflow) :=
    Directory.reserveBins_refused 61 hrefused
  refine ⟨by decide, hrefused, hfault, fun hreport => ?_⟩
  rw [hfault] at hreport
  cases hreport

end BlockCache

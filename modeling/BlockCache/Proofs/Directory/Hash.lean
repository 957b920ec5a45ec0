import BlockCache.Directory.Basic
import Mathlib.Data.FinEnum
import Mathlib.Data.Nat.Bitwise
import Mathlib.Data.Nat.ModEq
import Mathlib.Order.Interval.Set.Nat

/-!
# Hash — how the keys are spread over the bins

* `foldBits s n` — what one fold of the hash makes of a number;
* `keyBlock k m` — the block of `2 ^ k` consecutive keys whose first one is `m * 2 ^ k`.

Two keys of a block differ in their low `k` bits only. Folding never forgets a number and leaves
keys of a block in a block, and an odd factor can be cancelled modulo `2 ^ k`. So a directory of
`2 ^ k` bins has one key of the block in each of its bins (`bijOn_keyBlock`), and since the blocks
make up all keys, every bin has the same number of them (`ncard_bin`).
-/

namespace BlockCache

variable {k m : Nat} {x y : UInt32}

/-! ## Steps of the hash -/

/-- A number with the bits from bit `s` on folded onto its low ones. -/
def foldBits (s n : Nat) : Nat :=
  n ^^^ (n >>> s)

theorem toNat_foldKey (key : UInt32) :
    (foldKey key).toNat = foldBits 8 (foldBits 16 key.toNat) := by
  simp [foldKey, foldBits]

/-- Only higher bits are folded onto a bit, so the high part of a number is folded by itself. -/
theorem foldBits_shiftRight (s n k : Nat) : foldBits s n >>> k = foldBits s (n >>> k) := by
  rw [foldBits, foldBits, Nat.shiftRight_xor_distrib, ← Nat.shiftRight_add, Nat.add_comm,
    Nat.shiftRight_add]

theorem foldBits_injective {s : Nat} (hs : 0 < s) : Function.Injective (foldBits s) := by
  intro a b h
  -- The bits in which the two differ are their own shift, so there are none.
  have hshift : a ^^^ b = (a ^^^ b) >>> s := by
    apply Nat.eq_of_testBit_eq
    intro i
    have hbit := congrArg (Nat.testBit · i) h
    simp only [foldBits, Nat.testBit_xor, Nat.shiftRight_xor_distrib] at hbit ⊢
    grind
  rcases Nat.eq_zero_or_pos (a ^^^ b) with hzero | hpos
  · exact Nat.xor_eq_zero_iff.1 hzero
  · have hlt : (a ^^^ b) / 2 ^ s < a ^^^ b := Nat.div_lt_self hpos (Nat.one_lt_two_pow hs.ne')
    rw [← Nat.shiftRight_eq_div_pow, ← hshift] at hlt
    exact absurd hlt (Nat.lt_irrefl _)

/-- The factor is odd, so it can be cancelled. -/
theorem mod_eq_of_mul_goldenRatio {a b : Nat}
    (h : a * goldenRatio.toNat % 2 ^ k = b * goldenRatio.toNat % 2 ^ k) :
    a % 2 ^ k = b % 2 ^ k := by
  have hcoprime : Nat.Coprime (2 ^ k) goldenRatio.toNat := Nat.Coprime.pow_left k (by decide)
  exact Nat.ModEq.cancel_right_of_coprime hcoprime h

theorem binOf_two_pow (hk : k ≤ 32) (key : UInt32) :
    binOf (2 ^ k) key = (foldKey key).toNat * goldenRatio.toNat % 2 ^ k := by
  rw [binOf, hashKey, UInt32.toNat_mul, Nat.mod_mod_of_dvd _ (Nat.pow_dvd_pow 2 hk)]

/-- Keys of one block that belong to one bin are the same. -/
theorem eq_of_binOf_eq (hk : k ≤ 32) (hblock : x.toNat / 2 ^ k = y.toNat / 2 ^ k)
    (hbin : binOf (2 ^ k) x = binOf (2 ^ k) y) : x = y := by
  have hlow : (foldKey x).toNat % 2 ^ k = (foldKey y).toNat % 2 ^ k := by
    rw [binOf_two_pow hk, binOf_two_pow hk] at hbin
    exact mod_eq_of_mul_goldenRatio hbin
  have hhigh : (foldKey x).toNat / 2 ^ k = (foldKey y).toNat / 2 ^ k := by
    simp only [← Nat.shiftRight_eq_div_pow] at hblock ⊢
    rw [toNat_foldKey, toNat_foldKey, foldBits_shiftRight, foldBits_shiftRight, hblock,
      foldBits_shiftRight, foldBits_shiftRight]
  have hfold : (foldKey x).toNat = (foldKey y).toNat := by
    rw [← Nat.div_add_mod (foldKey x).toNat, hhigh, hlow, Nat.div_add_mod]
  rw [toNat_foldKey, toNat_foldKey] at hfold
  exact UInt32.toNat_inj.1 (foldBits_injective (by decide) (foldBits_injective (by decide) hfold))

/-! ## Blocks of keys -/

/-- The keys from `m * 2 ^ k` up to, and not including, `m * 2 ^ k + 2 ^ k`. -/
def keyBlock (k m : Nat) : Set UInt32 :=
  {key | m * 2 ^ k ≤ key.toNat ∧ key.toNat < m * 2 ^ k + 2 ^ k}

theorem mem_keyBlock : x ∈ keyBlock k m ↔ x.toNat / 2 ^ k = m := by
  have hpos : 0 < 2 ^ k := Nat.two_pow_pos k
  rw [Nat.div_eq_iff hpos, keyBlock, Set.mem_ofPred_eq]
  omega

/-- Each bin has one key of the block. -/
theorem bijOn_keyBlock (hk : k ≤ 32) (hm : m * 2 ^ k + 2 ^ k ≤ 2 ^ 32) :
    Set.BijOn (binOf (2 ^ k)) (keyBlock k m) (Set.Iio (2 ^ k)) := by
  have hlt : ∀ key, binOf (2 ^ k) key < 2 ^ k := fun key => Nat.mod_lt _ (Nat.two_pow_pos k)
  refine ⟨fun key _ => hlt key, fun x hx y hy hbin => ?_, fun b hb => ?_⟩
  · rw [mem_keyBlock] at hx hy
    exact eq_of_binOf_eq hk (hx.trans hy.symm) hbin
  · -- The block has as many keys as there are bins, so no bin is left out.
    let keyAt : Fin (2 ^ k) → UInt32 := fun i => UInt32.ofNat (m * 2 ^ k + i)
    have hkeyAt : ∀ i, (keyAt i).toNat = m * 2 ^ k + i := fun i =>
      UInt32.toNat_ofNat_of_lt' (Nat.lt_of_lt_of_le (Nat.add_lt_add_left i.isLt _) hm)
    have hmem : ∀ i, keyAt i ∈ keyBlock k m := by
      intro i
      have hi := i.isLt
      rw [keyBlock, Set.mem_ofPred_eq, hkeyAt]
      omega
    let binAt : Fin (2 ^ k) → Fin (2 ^ k) := fun i => ⟨binOf (2 ^ k) (keyAt i), hlt _⟩
    have hinjective : Function.Injective binAt := by
      intro i j hij
      have hkeys : keyAt i = keyAt j :=
        eq_of_binOf_eq hk ((mem_keyBlock.1 (hmem i)).trans (mem_keyBlock.1 (hmem j)).symm)
          (congrArg Fin.val hij)
      have hnumbers := congrArg UInt32.toNat hkeys
      rw [hkeyAt, hkeyAt] at hnumbers
      exact Fin.ext (Nat.add_left_cancel hnumbers)
    obtain ⟨i, hi⟩ := Finite.injective_iff_surjective.1 hinjective ⟨b, hb⟩
    exact ⟨keyAt i, hmem i, congrArg Fin.val hi⟩

/-! ## All keys -/

/-- A key is told by its hash: all keys are one block for a directory of `2 ^ 32` bins. -/
theorem bijective_hashKey : Function.Bijective hashKey := by
  apply Finite.injective_iff_bijective.1
  intro x y h
  apply eq_of_binOf_eq (Nat.le_refl 32)
  · rw [Nat.div_eq_of_lt x.toNat_lt, Nat.div_eq_of_lt y.toNat_lt]
  · rw [binOf, binOf, h]

/-- A bin has one key of each block. -/
theorem ncard_bin (hk : k ≤ 32) {b : Nat} (hb : b < 2 ^ k) :
    {key | binOf (2 ^ k) key = b}.ncard = 2 ^ 32 / 2 ^ k := by
  have hpos : 0 < 2 ^ k := Nat.two_pow_pos k
  have hblocks : 2 ^ 32 / 2 ^ k * 2 ^ k = 2 ^ 32 :=
    Nat.div_mul_cancel (Nat.pow_dvd_pow 2 hk)
  have hbij : Set.BijOn (fun key : UInt32 => key.toNat / 2 ^ k) {key | binOf (2 ^ k) key = b}
      (Set.Iio (2 ^ 32 / 2 ^ k)) := by
    refine ⟨fun key _ => ?_, fun x hx y hy hblock => ?_, fun m hm => ?_⟩
    · rw [Set.mem_Iio, Nat.div_lt_iff_lt_mul hpos, hblocks]
      exact key.toNat_lt
    · exact eq_of_binOf_eq hk hblock (hx.trans hy.symm)
    · have hfits : m * 2 ^ k + 2 ^ k ≤ 2 ^ 32 := by
        rw [← Nat.succ_mul, ← hblocks]
        exact Nat.mul_le_mul_right _ hm
      obtain ⟨key, hkey, hbin⟩ := (bijOn_keyBlock hk hfits).surjOn hb
      exact ⟨key, hbin, mem_keyBlock.1 hkey⟩
  rw [hbij.ncard_eq, Set.ncard_Iio_nat]

/-- A directory of `2 ^ k` bins spreads every block of `2 ^ k` keys over all its bins, so that each
bin gets one key of the block and as many keys in all as any other. No two keys have one hash. -/
theorem Directory.binOf_spreads_blocks {d : Directory} (hk : k ≤ 32) (hbins : d.binCount = 2 ^ k) :
    (∀ m, m * 2 ^ k + 2 ^ k ≤ 2 ^ 32 →
      Set.BijOn d.binOf (keyBlock k m) (Set.Iio (2 ^ k))) ∧
    (∀ b < 2 ^ k, {key | d.binOf key = b}.ncard = 2 ^ 32 / 2 ^ k) ∧
    Function.Bijective hashKey := by
  have hbinOf : d.binOf = BlockCache.binOf (2 ^ k) := by
    funext key
    rw [Directory.binOf, hbins]
  rw [hbinOf]
  exact ⟨fun m hm => bijOn_keyBlock hk hm, fun b hb => ncard_bin hk hb, bijective_hashKey⟩

/-- The last block of a directory of a million bins. -/
theorem Directory.binOf_spreads_last_block :
    let d : Directory := ⟨Array.replicate (2 ^ 20) none, none, #[]⟩
    d.binCount = 2 ^ 20 ∧ Set.BijOn d.binOf (keyBlock 20 4095) (Set.Iio (2 ^ 20)) ∧
      {key | d.binOf key = 7}.ncard = 4096 := by
  have hbins : Directory.binCount ⟨Array.replicate (2 ^ 20) none, none, #[]⟩ = 2 ^ 20 :=
    Array.size_replicate
  obtain ⟨hblocks, hcount, _⟩ := Directory.binOf_spreads_blocks (by decide : 20 ≤ 32) hbins
  exact ⟨hbins, hblocks 4095 (by decide), hcount 7 (by decide)⟩

end BlockCache

import BlockCache.Layout
import BlockCache.Proofs.Steps
import Mathlib.Order.Bounds.Basic

/-!
# Layout — what the planner comes to

* `share total config` — the entries that the budget would hold, times the percentage;
* `storeStart entries bins` — where the regions before the store end, without any gap;
* `planned total entries bins` — the layout with these numbers of entries and bins;
* `Plannable total config` — all that a plan asks of its budget and its configuration.

The planner checks each of its steps for overflow. Where the share fits a word all later steps do,
and the regions need no padding, so that every check but the first can be dropped (`plan_eq`). From
that follow which budgets are planned and how (`plan_eq_ok_iff`), and why the others are refused
(`plan_error`, `plan_overflow_iff`).
-/

namespace BlockCache

/-! ## Configurations -/

namespace Config

theorem validate_eq_ok_iff {config : Config} : config.validate = .ok () ↔
    1 ≤ config.chainLength ∧ 5 ≤ config.entryPercentage ∧ config.entryPercentage ≤ 95 := by
  unfold validate entryPercentageRange
  split_ifs with hchain hshare
  · exact iff_of_false nofun (by omega)
  · exact iff_of_false nofun (by dsimp only at hshare; omega)
  · exact iff_of_true rfl (by dsimp only at hshare; omega)

theorem validate_error {config : Config} {e : CacheError} (h : config.validate = .error e) :
    ∃ reason, e = .badArgument reason ∧ ∀ total, reason ≠ .layoutOverflow total := by
  unfold validate at h
  split_ifs at h
  all_goals
    cases h
    exact ⟨_, rfl, fun _ h => by cases h⟩

end Config

namespace Layout

variable {total entries bins n unit : Nat} {config : Config} {l : Layout}

/-! ## Bins -/

/-- The largest power of two within the number of bins that is aimed for. -/
theorem binsFor_isGreatest (entries chainLength : Nat) :
    IsGreatest {b | (∃ k, b = Nat.pow 2 k) ∧ b ≤ max 1 (entries / chainLength)}
      (binsFor entries chainLength) := by
  have hne : max 1 (entries / chainLength) ≠ 0 :=
    Nat.ne_of_gt (Nat.lt_of_lt_of_le Nat.zero_lt_one (Nat.le_max_left _ _))
  refine ⟨⟨⟨_, rfl⟩, Nat.log2_self_le hne⟩, ?_⟩
  rintro _ ⟨⟨k, rfl⟩, hle⟩
  exact Nat.pow_le_pow_right Nat.zero_lt_two ((Nat.le_log2 hne).2 hle)

theorem binsFor_le (entries chainLength : Nat) :
    binsFor entries chainLength ≤ max 1 entries := by
  have hle := (binsFor_isGreatest entries chainLength).1.2
  have hdiv := Nat.div_le_self entries chainLength
  omega

/-! ## Sizes -/

def share (total : Nat) (config : Config) : Nat :=
  total / Footprint.entry * config.entryPercentage

def entriesFor (total : Nat) (config : Config) : Nat :=
  share total config / 100

def storeStart (entries bins : Nat) : Nat :=
  Footprint.header + (bins + 1) * Footprint.head + entries * Footprint.entry

/-- The store has all whole granules that are left. -/
def planned (total entries bins : Nat) : Layout where
  totalLength := total
  entryCount := entries
  binCount := bins
  binsOffset := Footprint.header
  entriesOffset := Footprint.header + (bins + 1) * Footprint.head
  storeOffset := storeStart entries bins
  storeLength := total - storeStart entries bins - (total - storeStart entries bins) % granule

/-- The sizes that the planner computes behind the share, in this order. -/
def sizes (entries bins : Nat) : List Nat :=
  [bins, bins + 1, (bins + 1) * Footprint.head, Footprint.header + (bins + 1) * Footprint.head,
    entries * Footprint.entry, storeStart entries bins]

theorem le_storeStart : ∀ size ∈ sizes entries bins, size ≤ storeStart entries bins := by
  simp only [sizes, List.forall_mem_cons, storeStart, Footprint.header, Footprint.head,
    Footprint.entry]
  refine ⟨?_, ?_, ?_, ?_, ?_, ?_, List.forall_mem_nil _⟩ <;> omega

/-- Where the share fits a word, the last of the sizes, which is the largest, does. There are no
more bins than entries, unless there is one, and an entry with a bin takes less than 100 bytes. -/
theorem storeStart_lt (chainLength : Nat) (hshare : share total config < Word.limit) :
    storeStart (entriesFor total config) (binsFor (entriesFor total config) chainLength) <
      Word.limit := by
  have hbins := binsFor_le (entriesFor total config) chainLength
  have hentries : entriesFor total config = share total config / 100 := rfl
  have hlimit : Word.limit = 18446744073709551616 := rfl
  simp only [storeStart, Footprint.header, Footprint.head, Footprint.entry]
  omega

theorem sizes_lt (chainLength : Nat) (hshare : share total config < Word.limit) :
    ∀ size ∈ sizes (entriesFor total config) (binsFor (entriesFor total config) chainLength),
      size < Word.limit :=
  fun size hsize => Nat.lt_of_le_of_lt (le_storeStart size hsize) (storeStart_lt chainLength hshare)

/-- So does the number that the bins are shifted by. -/
theorem log2_lt (chainLength : Nat) (hshare : share total config < Word.limit) :
    (max 1 (entriesFor total config / chainLength)).log2 < 64 := by
  have hdiv := Nat.div_le_self (entriesFor total config) chainLength
  have hentries : entriesFor total config = share total config / 100 := rfl
  have hlimit : Word.limit = 2 ^ 64 := rfl
  rw [Nat.log2_lt (by omega)]
  omega

theorem word_of_lt (h : n < Word.limit) : word total n = .ok n := by
  rw [word, Word.fits?, if_pos h]

theorem word_of_le (h : Word.limit ≤ n) :
    word total n = .error (.badArgument (.layoutOverflow total)) := by
  rw [word, Word.fits?, if_neg (Nat.not_lt.2 h)]

/-- An offset that is aligned stays where it is. -/
theorem align_of_dvd (hunit : 0 < unit) (hdvd : unit ∣ n) (h : n < Word.limit) :
    align total n unit = .ok n := by
  have hround : (n + (unit - 1)) / unit * unit = n := by
    obtain ⟨k, rfl⟩ := hdvd
    rw [Nat.mul_add_div hunit, Nat.div_eq_of_lt (Nat.sub_one_lt (Nat.ne_of_gt hunit)),
      Nat.add_zero, Nat.mul_comm]
  rw [align, Word.roundUp?, hround, Word.fits?, if_pos h]

theorem entries_aligned (bins : Nat) :
    Footprint.entryAlignment ∣ Footprint.header + (bins + 1) * Footprint.head :=
  Nat.dvd_add (by decide) (Nat.dvd_mul_left _ _)

theorem store_aligned (entries bins : Nat) :
    Footprint.extentAlignment ∣ storeStart entries bins :=
  Nat.dvd_add (entries_aligned bins) (Nat.dvd_mul_left_of_dvd (by decide) _)

/-- The regions end where the next ones may begin, so no padding comes between them. -/
theorem align_regions (total : Nat) (h : storeStart entries bins < Word.limit) :
    align total Footprint.header Footprint.headAlignment = .ok Footprint.header ∧
    align total (Footprint.header + (bins + 1) * Footprint.head) Footprint.entryAlignment =
      .ok (Footprint.header + (bins + 1) * Footprint.head) ∧
    align total (Footprint.header + (bins + 1) * Footprint.head + entries * Footprint.entry)
      Footprint.extentAlignment = .ok (storeStart entries bins) := by
  have hle : Footprint.header + (bins + 1) * Footprint.head ≤ storeStart entries bins :=
    Nat.le_add_right _ _
  exact ⟨align_of_dvd (by decide) (by decide) (by decide),
    align_of_dvd (by decide) (entries_aligned bins) (Nat.lt_of_le_of_lt hle h),
    align_of_dvd (by decide) (store_aligned entries bins) h⟩

/-- Something is left for the store exactly if a granule is. -/
theorem left_eq_zero_iff {start : Nat} :
    total - start - (total - start) % granule = 0 ↔ total < start + granule := by
  simp only [granule, Footprint.extent]
  omega

/-! ## The planner -/

/-- The planner with one check for overflow, that of the share. -/
theorem plan_eq (total : Nat) (config : Config) :
    plan total config = (do
      config.validate
      if total < minTotalLength then
        throw (.badArgument (.budgetTooSmall total))
      else if Word.limit ≤ share total config then
        throw (.badArgument (.layoutOverflow total))
      else
        let entries := entriesFor total config
        let bins := binsFor entries config.chainLength
        if entries < 1 then
          throw (.badArgument (.noEntries total))
        else if total < storeStart entries bins + granule then
          throw (.badArgument (.noStore entries bins (storeStart entries bins) total))
        else
          return planned total entries bins) := by
  unfold plan
  cases config.validate with
  | error e => rfl
  | ok u =>
      simp only [ok_bind]
      by_cases htotal : total < minTotalLength
      · rw [if_pos htotal, if_pos htotal]
        rfl
      rw [if_neg htotal, if_neg htotal]
      by_cases hshare : Word.limit ≤ share total config
      · rw [if_pos hshare]
        show (word total (share total config) >>= _) = _
        rw [word_of_le hshare]
        rfl
      rw [if_neg hshare]
      show (word total (share total config) >>= _) = _
      rw [word_of_lt (Nat.not_le.1 hshare), ok_bind]
      rw [show share total config / 100 = entriesFor total config from rfl]
      by_cases hentries : entriesFor total config < 1
      · rw [if_pos hentries, if_pos hentries]
        rfl
      rw [if_neg hentries, if_neg hentries]
      -- No step behind the share stops.
      obtain ⟨hbins, hheads, hstore⟩ :=
        align_regions total (storeStart_lt config.chainLength (Nat.not_le.1 hshare))
      simp only [hbins, hheads, hstore, ok_bind]
      by_cases hroom : total < storeStart (entriesFor total config)
          (binsFor (entriesFor total config) config.chainLength) + granule
      · rw [if_pos hroom, if_pos (left_eq_zero_iff.2 hroom)]
        rfl
      · rw [if_neg hroom, if_neg (mt left_eq_zero_iff.1 hroom)]
        rfl

/-- What a budget and a configuration have to satisfy to be planned. -/
structure Plannable (total : Nat) (config : Config) : Prop where
  valid : config.validate = .ok ()
  budget : minTotalLength ≤ total
  share_lt : share total config < Word.limit
  entries_pos : 1 ≤ entriesFor total config
  room : storeStart (entriesFor total config)
    (binsFor (entriesFor total config) config.chainLength) + granule ≤ total

theorem plan_eq_ok_iff : plan total config = .ok l ↔ Plannable total config ∧
    l = planned total (entriesFor total config)
      (binsFor (entriesFor total config) config.chainLength) := by
  rw [plan_eq]
  cases hvalid : config.validate with
  | error e =>
      refine ⟨fun h => (by cases h), fun h => ?_⟩
      have hok := h.1.valid
      rw [hvalid] at hok
      cases hok
  | ok u =>
      simp only [ok_bind]
      constructor
      · intro h
        split_ifs at h with hbudget hshare hentries hroom
        cases h
        exact ⟨⟨hvalid, Nat.not_lt.1 hbudget, Nat.not_le.1 hshare, Nat.not_lt.1 hentries,
          Nat.not_lt.1 hroom⟩, rfl⟩
      · rintro ⟨h, rfl⟩
        rw [if_neg (Nat.not_lt.2 h.budget), if_neg (Nat.not_le.2 h.share_lt),
          if_neg (Nat.not_lt.2 h.entries_pos), if_neg (Nat.not_lt.2 h.room)]
        rfl

theorem plan_pos (h : plan total config = .ok l) : 0 < l.entryCount ∧ 0 < l.binCount := by
  obtain ⟨hplan, rfl⟩ := plan_eq_ok_iff.1 h
  exact ⟨hplan.entries_pos, Nat.two_pow_pos _⟩

theorem sizes_lt_of_plan (h : plan total config = .ok l) :
    ∀ size ∈ sizes l.entryCount l.binCount, size < Word.limit := by
  obtain ⟨hplan, rfl⟩ := plan_eq_ok_iff.1 h
  exact sizes_lt config.chainLength hplan.share_lt

/-- A budget that is refused is a bad argument, whatever the reason. -/
theorem plan_error {e : CacheError} (h : plan total config = .error e) :
    ∃ reason, e = .badArgument reason := by
  rw [plan_eq] at h
  rcases eq_error_of_bind h with hvalid | ⟨_, _, h⟩
  · obtain ⟨reason, rfl, -⟩ := Config.validate_error hvalid
    exact ⟨reason, rfl⟩
  · dsimp only at h
    split_ifs at h <;> cases h
    all_goals exact ⟨_, rfl⟩

theorem plan_overflow_iff : plan total config = .error (.badArgument (.layoutOverflow total)) ↔
    config.validate = .ok () ∧ minTotalLength ≤ total ∧ Word.limit ≤ share total config := by
  rw [plan_eq]
  constructor
  · intro h
    rcases eq_error_of_bind h with hvalid | ⟨_, hvalid, h⟩
    · obtain ⟨reason, heq, hne⟩ := Config.validate_error hvalid
      cases heq
      exact absurd rfl (hne total)
    · dsimp only at h
      split_ifs at h with hbudget hshare
      · cases h
      · exact ⟨hvalid, Nat.not_lt.1 hbudget, hshare⟩
      all_goals cases h
  · rintro ⟨hvalid, hbudget, hshare⟩
    rw [hvalid, ok_bind, if_neg (Nat.not_lt.2 hbudget), if_pos hshare]
    rfl

/-! ## The regions -/

/-- The regions follow each other, each at an aligned offset. -/
structure Ordered (l : Layout) : Prop where
  header_le : Footprint.header ≤ l.binsOffset
  heads_le : l.binsOffset + (l.binCount + 1) * Footprint.head ≤ l.entriesOffset
  entries_le : l.entriesOffset + l.entryCount * Footprint.entry ≤ l.storeOffset
  heads_aligned : Footprint.headAlignment ∣ l.binsOffset
  entries_aligned : Footprint.entryAlignment ∣ l.entriesOffset
  store_aligned : Footprint.extentAlignment ∣ l.storeOffset

/-- The store takes whole granules and leaves less than one of the budget. -/
structure Filled (l : Layout) : Prop where
  store_pos : 0 < l.storeLength
  store_dvd : granule ∣ l.storeLength
  stop_le : l.stop ≤ l.totalLength
  slack_lt : l.totalLength - l.stop < granule

theorem planned_ordered (total entries bins : Nat) : (planned total entries bins).Ordered where
  header_le := Nat.le_refl _
  heads_le := Nat.le_refl _
  entries_le := Nat.le_refl _
  heads_aligned := ⟨14, rfl⟩
  entries_aligned := entries_aligned bins
  store_aligned := store_aligned entries bins

theorem planned_filled (h : storeStart entries bins + granule ≤ total) :
    (planned total entries bins).Filled := by
  have hlength : (planned total entries bins).storeLength =
      (total - storeStart entries bins) / granule * granule := by
    have hdiv := Nat.div_add_mod' (total - storeStart entries bins) granule
    simp only [planned]
    omega
  have hmod := Nat.mod_lt (total - storeStart entries bins) (show 0 < granule by decide)
  refine ⟨?_, hlength ▸ Nat.dvd_mul_left _ _, ?_, ?_⟩ <;>
    simp only [stop, planned, granule, Footprint.extent] at h hmod ⊢ <;> omega

/-- What becomes of a plan is decided by the share, the numbers of entries and bins that follow from
it, and where the store would begin. The share is the only size that can be too large for a word. -/
theorem plan_outcome (total : Nat) (config : Config) :
    let entries := entriesFor total config
    let bins := binsFor entries config.chainLength
    IsGreatest {b | (∃ k, b = Nat.pow 2 k) ∧ b ≤ max 1 (entries / config.chainLength)} bins ∧
    (config.validate = .ok () ↔ 1 ≤ config.chainLength ∧
      5 ≤ config.entryPercentage ∧ config.entryPercentage ≤ 95) ∧
    ((∃ l, plan total config = .ok l) ↔ config.validate = .ok () ∧ minTotalLength ≤ total ∧
      share total config < Word.limit ∧ 1 ≤ entries ∧ storeStart entries bins + granule ≤ total) ∧
    (∀ e, plan total config = .error e → ∃ reason, e = .badArgument reason) ∧
    (∀ l, plan total config = .ok l → l.totalLength = total ∧ l.entryCount = entries ∧
      l.binCount = bins ∧ l.storeOffset = storeStart entries bins ∧ l.Ordered ∧ l.Filled) ∧
    (plan total config = .error (.badArgument (.layoutOverflow total)) ↔
      config.validate = .ok () ∧ minTotalLength ≤ total ∧ Word.limit ≤ share total config) ∧
    (share total config < Word.limit → (max 1 (entries / config.chainLength)).log2 < 64 ∧
      ∀ size ∈ sizes entries bins, size < Word.limit) := by
  intro entries bins
  refine ⟨binsFor_isGreatest entries config.chainLength, Config.validate_eq_ok_iff, ?_,
    fun e h => plan_error h, ?_, plan_overflow_iff, ?_⟩
  · constructor
    · rintro ⟨l, h⟩
      obtain ⟨hplan, -⟩ := plan_eq_ok_iff.1 h
      exact ⟨hplan.valid, hplan.budget, hplan.share_lt, hplan.entries_pos, hplan.room⟩
    · rintro ⟨hvalid, hbudget, hshare, hentries, hroom⟩
      exact ⟨_, plan_eq_ok_iff.2 ⟨⟨hvalid, hbudget, hshare, hentries, hroom⟩, rfl⟩⟩
  · intro l h
    obtain ⟨hplan, rfl⟩ := plan_eq_ok_iff.1 h
    exact ⟨rfl, rfl, rfl, rfl, planned_ordered total entries bins, planned_filled hplan.room⟩
  · intro hshare
    exact ⟨log2_lt config.chainLength hshare, sizes_lt config.chainLength hshare⟩

theorem plan_outcome_smallest :
    plan minTotalLength {} = .ok ⟨512, 2, 1, 56, 72, 168, 336⟩ ∧
    (⟨512, 2, 1, 56, 72, 168, 336⟩ : Layout).Ordered ∧
    (⟨512, 2, 1, 56, 72, 168, 336⟩ : Layout).Filled ∧
    ∀ size ∈ sizes 2 1, size < Word.limit := by
  have hplan : plan minTotalLength {} = .ok ⟨512, 2, 1, 56, 72, 168, 336⟩ := rfl
  obtain ⟨-, -, -, -, hlayout, -, hsizes⟩ := plan_outcome minTotalLength {}
  obtain ⟨-, -, -, -, hordered, hfilled⟩ := hlayout _ hplan
  exact ⟨hplan, hordered, hfilled, (hsizes (by decide)).2⟩

end Layout
end BlockCache

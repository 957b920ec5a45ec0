import BlockCache.Directory.Victim
import BlockCache.Proofs.Directory.Spells
import Mathlib.Data.Prod.Lex
import Mathlib.Order.Bounds.Basic

/-!
# Victim — the least of the heads

`d.candidate b` is the head of the bin `b` together with its time. A scan of the bins compares each
head with the best one so far, and so it ends with the candidate that is least by time and then by
bin (`victim_cases`), whatever the times are and whatever is linked behind the heads. The heads and
their times determine the victim (`victim_isLeast`): directories that have these in common
(`SameHeads`) have the same one.
-/

namespace BlockCache

/-! ## The least candidate -/

namespace Candidate

/-- Order by time, then by bin. -/
def Le (v w : Candidate) : Prop :=
  v.time < w.time ∨ v.time = w.time ∧ v.bin ≤ w.bin

variable {u v w : Candidate}

theorem Le.refl (v : Candidate) : v.Le v :=
  Or.inr ⟨rfl, Nat.le_refl _⟩

theorem Le.trans (h : u.Le v) (h' : v.Le w) : u.Le w := by
  unfold Le at *
  omega

theorem Le.antisymm (h : v.Le w) (h' : w.Le v) : v.bin = w.bin ∧ v.time = w.time := by
  unfold Le at *
  omega

theorem le_iff_toLex_le : v.Le w ↔ toLex (v.time, v.bin) ≤ toLex (w.time, w.bin) := by
  rw [Prod.Lex.toLex_le_toLex]
  rfl

/-- The least of the candidates that satisfy `p`, if there are any. -/
def Chosen (p : Candidate → Prop) : Option Candidate → Prop
  | none => ∀ w, ¬ p w
  | some v => p v ∧ ∀ w, p w → v.Le w

/-- More candidates do not change the choice if none of them is below the others. -/
theorem Chosen.extend {p p' : Candidate → Prop} {choice : Option Candidate} (h : Chosen p choice)
    (hsub : ∀ w, p w → p' w) (hbelow : ∀ w, p' w → ∃ u, p u ∧ u.Le w) : Chosen p' choice := by
  cases choice with
  | none =>
      intro w hw
      obtain ⟨u, hu, _⟩ := hbelow w hw
      exact h u hu
  | some v =>
      refine ⟨hsub v h.1, fun w hw => ?_⟩
      obtain ⟨u, hu, hle⟩ := hbelow w hw
      exact (h.2 u hu).trans hle

end Candidate

namespace Directory

variable {d : Directory} {best : Option Candidate} {bin count : Nat} {w : Candidate}

/-! ## The scan -/

/-- The head of a bin, if the bin is occupied. -/
def candidate (d : Directory) (b : Nat) : Option Candidate :=
  (d.headOf b).map fun id => ⟨b, id, (d.item id).time⟩

/-- The heads of the bins name entries. -/
def ValidHeads (d : Directory) : Prop :=
  ∀ b < d.binCount, ∀ id, d.headOf b = some id → id < d.capacity

/-- The best candidate after the one of the bin `bin` has been looked at. -/
def better (d : Directory) (best : Option Candidate) (bin : Nat) : Option Candidate :=
  match d.candidate bin with
  | none => best
  | some w => if best.any (·.time ≤ w.time) then best else some w

/-- Where heads name entries, a step of the scan settles the best candidate so far. -/
theorem oldest_succ (hheads : d.ValidHeads) (hbin : bin < d.binCount) :
    d.oldest best bin (count + 1) = d.oldest (d.better best bin) (bin + 1) count := by
  have hget : d.bins[bin]? = some (d.headOf bin) := by
    have hsize : bin < d.bins.size := hbin
    simp [headOf, hbin, hsize]
  cases hhead : d.headOf bin with
  | none => simp only [oldest, better, hget, candidate, hhead, Option.map_none]
  | some id =>
      obtain ⟨e, hentry, _, hitem⟩ := entry_of_lt (hheads bin hbin id hhead)
      have htime : e.time = (d.item id).time := by rw [← hitem]
      simp only [oldest, better, hget, candidate, hhead, hentry, htime, Option.map_some]
      split_ifs <;> rfl

/-- The better one of two is one of them, and below both. -/
theorem better_spec (hbest : ∀ w, best = some w → w.bin ≤ bin) :
    (∀ u, d.better best bin = some u → best = some u ∨ d.candidate bin = some u) ∧
      ∀ w, best = some w ∨ d.candidate bin = some w → ∃ u, d.better best bin = some u ∧ u.Le w := by
  cases hcandidate : d.candidate bin with
  | none =>
      simp only [better, hcandidate, reduceCtorEq, or_false]
      exact ⟨fun u hu => hu, fun w hw => ⟨w, hw, .refl w⟩⟩
  | some v =>
      have hv : v.bin = bin := by
        obtain ⟨id, _, rfl⟩ := Option.map_eq_some_iff.1 hcandidate
        rfl
      simp only [better, hcandidate]
      cases best with
      | none =>
          refine ⟨fun u hu => Or.inr hu, ?_⟩
          rintro w (hw | hw)
          · cases hw
          · exact ⟨w, hw, .refl w⟩
      | some b =>
          have hb := hbest b rfl
          simp only [Option.any_some, decide_eq_true_eq]
          split_ifs with hold
          · -- The one from the lower bin stays where the times are equal.
            refine ⟨fun u hu => Or.inl hu, ?_⟩
            rintro w (hw | hw) <;> cases hw
            · exact ⟨b, rfl, .refl b⟩
            · exact ⟨b, rfl, by unfold Candidate.Le; omega⟩
          · refine ⟨fun u hu => Or.inr hu, ?_⟩
            rintro w (hw | hw) <;> cases hw
            · exact ⟨v, rfl, Or.inl (Nat.lt_of_not_le hold)⟩
            · exact ⟨v, rfl, .refl v⟩

/-- What the choice is made from: `best` and the heads of `count` bins from `bin` on. -/
def Contends (d : Directory) (best : Option Candidate) (bin count : Nat) (w : Candidate) : Prop :=
  best = some w ∨ ∃ b, bin ≤ b ∧ b < bin + count ∧ d.candidate b = some w

theorem contends_succ : d.Contends best bin (count + 1) w ↔
    (best = some w ∨ d.candidate bin = some w) ∨
      ∃ b, bin + 1 ≤ b ∧ b < bin + 1 + count ∧ d.candidate b = some w := by
  rw [Contends, or_assoc]
  refine or_congr_right ⟨?_, ?_⟩
  · rintro ⟨b, hle, hlt, hb⟩
    rcases Nat.eq_or_lt_of_le hle with rfl | hlt'
    · exact Or.inl hb
    · exact Or.inr ⟨b, hlt', by omega, hb⟩
  · rintro (hb | ⟨b, hle, hlt, hb⟩)
    · exact ⟨bin, Nat.le_refl _, by omega, hb⟩
    · exact ⟨b, by omega, by omega, hb⟩

theorem oldest_spec (hheads : d.ValidHeads) (hsum : bin + count ≤ d.binCount)
    (hbest : ∀ w, best = some w → w.bin ≤ bin) :
    ∃ choice, d.oldest best bin count = .ok choice ∧
      Candidate.Chosen (d.Contends best bin count) choice := by
  induction count generalizing bin best with
  | zero =>
      have hnone : ∀ w, d.Contends best bin 0 w ↔ best = some w := by
        intro w
        rw [Contends, or_iff_left]
        rintro ⟨b, hle, hlt, _⟩
        omega
      refine ⟨best, rfl, ?_⟩
      cases best with
      | none => exact fun w hw => by cases (hnone w).1 hw
      | some v =>
          refine ⟨Or.inl rfl, fun w hw => ?_⟩
          cases (hnone w).1 hw
          exact .refl v
  | succ count ih =>
      obtain ⟨hfrom, hbelow⟩ := better_spec (d := d) hbest
      have hnext : ∀ w, d.better best bin = some w → w.bin ≤ bin + 1 := by
        intro w hw
        rcases hfrom w hw with hw | hw
        · exact Nat.le_succ_of_le (hbest w hw)
        · obtain ⟨id, _, rfl⟩ := Option.map_eq_some_iff.1 hw
          exact Nat.le_succ _
      have hrest : bin + 1 + count ≤ d.binCount := by omega
      obtain ⟨choice, heq, hchosen⟩ := ih hrest hnext
      refine ⟨choice, (oldest_succ hheads (by omega)).trans heq, ?_⟩
      -- The candidate that is dropped here is not below the one that is kept.
      refine hchosen.extend (fun w hw => ?_) fun w hw => ?_
      · rw [contends_succ]
        exact hw.imp_left (hfrom w)
      · rcases contends_succ.1 hw with hw | hw
        · obtain ⟨u, hu, hle⟩ := hbelow w hw
          exact ⟨u, Or.inl hu, hle⟩
        · exact ⟨w, Or.inr hw, .refl w⟩

/-! ## The victim -/

/-- The victim is the head that is least by time and then by bin. There is none only if no bin has
a head. -/
theorem victim_cases (hheads : d.ValidHeads) :
    (d.victim = .ok none ∧ ∀ b < d.binCount, d.headOf b = none) ∨
      ∃ v, d.victim = .ok (some v) ∧ v.bin < d.binCount ∧ d.headOf v.bin = some v.id ∧
        v.time = (d.item v.id).time ∧
        ∀ b < d.binCount, ∀ id, d.headOf b = some id → v.Le ⟨b, id, (d.item id).time⟩ := by
  obtain ⟨choice, heq, hchosen⟩ : ∃ choice, d.oldest none 0 d.binCount = .ok choice ∧
      Candidate.Chosen (d.Contends none 0 d.binCount) choice :=
    oldest_spec hheads (by omega) (by simp)
  have hmem : ∀ w, d.Contends none 0 d.binCount w ↔
      ∃ b < d.binCount, d.candidate b = some w := by
    intro w
    simp [Contends]
  have hhas : ∀ b < d.binCount, ∀ id, d.headOf b = some id →
      d.Contends none 0 d.binCount ⟨b, id, (d.item id).time⟩ := by
    intro b hb id hhead
    refine (hmem _).2 ⟨b, hb, ?_⟩
    rw [candidate, hhead]
    rfl
  cases choice with
  | none =>
      refine Or.inl ⟨heq, fun b hb => ?_⟩
      cases hhead : d.headOf b with
      | none => rfl
      | some id => exact absurd (hhas b hb id hhead) (hchosen _)
  | some v =>
      obtain ⟨b, hb, hv⟩ := (hmem v).1 hchosen.1
      obtain ⟨id, hhead, rfl⟩ := Option.map_eq_some_iff.1 hv
      exact Or.inr ⟨_, heq, hb, hhead, rfl, fun b' hb' id' hhead' =>
        hchosen.2 _ (hhas b' hb' id' hhead')⟩

theorem victim_eq_none_iff (hheads : d.ValidHeads) :
    d.victim = .ok none ↔ ∀ b < d.binCount, d.headOf b = none := by
  rcases victim_cases hheads with ⟨heq, hnone⟩ | ⟨v, heq, hbin, hhead, _⟩
  · exact iff_of_true heq hnone
  · rw [heq]
    refine iff_of_false (by simp) fun hnone => ?_
    rw [hnone v.bin hbin] at hhead
    cases hhead

/-- The times of the heads, each with the number of its bin, in lexicographic order. -/
def headRanks (d : Directory) : Set (Nat ×ₗ Nat) :=
  {rank | ∃ b < d.binCount, ∃ id, d.headOf b = some id ∧ rank = toLex ((d.item id).time, b)}

/-- To be the least of the heads is all that it takes to be the victim. -/
theorem victim_eq_some_iff (hheads : d.ValidHeads) (v : Candidate) :
    d.victim = .ok (some v) ↔ v.bin < d.binCount ∧ d.headOf v.bin = some v.id ∧
      v.time = (d.item v.id).time ∧ IsLeast d.headRanks (toLex (v.time, v.bin)) := by
  rcases victim_cases hheads with ⟨heq, hnone⟩ | ⟨w, heq, hbin, hhead, htime, hleast⟩
  · rw [heq]
    refine iff_of_false (by simp) ?_
    rintro ⟨hbin, hhead, -⟩
    rw [hnone v.bin hbin] at hhead
    cases hhead
  rw [heq]
  constructor
  · intro hvw
    cases hvw
    refine ⟨hbin, hhead, htime, ⟨v.bin, hbin, v.id, hhead, by rw [htime]⟩, ?_⟩
    rintro _ ⟨b, hb, id, hid, rfl⟩
    exact Candidate.le_iff_toLex_le.1 (hleast b hb id hid)
  · rintro ⟨hbin', hhead', htime', hleast'⟩
    -- Each of the two is a head, so neither is below the other.
    have hwv : w.Le v := by
      have hle := hleast v.bin hbin' v.id hhead'
      rwa [← htime'] at hle
    have hvw : v.Le w := Candidate.le_iff_toLex_le.2
      (hleast'.2 ⟨w.bin, hbin, w.id, hhead, by rw [htime]⟩)
    obtain ⟨hbins, htimes⟩ := hwv.antisymm hvw
    rw [hbins, hhead'] at hhead
    have hids := Option.some.inj hhead
    cases v
    cases w
    simp_all

/-! ## What the victim depends on -/

/-- The same entries head the bins, and they have the same times. The spare chain may differ, and so
may all entries that head no bin. -/
structure SameHeads (d d' : Directory) : Prop where
  binCount_eq : d'.binCount = d.binCount
  headOf_eq : ∀ b < d.binCount, d'.headOf b = d.headOf b
  time_eq : ∀ b < d.binCount, ∀ id, d.headOf b = some id →
    d'.entries[id]?.map (·.time) = d.entries[id]?.map (·.time)

namespace SameHeads

variable {d' : Directory}

theorem validHeads (h : d.SameHeads d') (hheads : d.ValidHeads) : d'.ValidHeads := by
  intro b hb id hhead
  rw [h.binCount_eq] at hb
  rw [h.headOf_eq b hb] at hhead
  obtain ⟨e, _, he, _⟩ := entry_of_lt (hheads b hb id hhead)
  have htime := h.time_eq b hb id hhead
  rw [he, Option.map_some, Option.map_eq_some_iff] at htime
  obtain ⟨e', he', _⟩ := htime
  exact (Array.getElem?_eq_some_iff.1 he').1

theorem item_time_eq (h : d.SameHeads d') {b id : Nat} (hb : b < d.binCount)
    (hhead : d.headOf b = some id) : (d'.item id).time = (d.item id).time := by
  have hgetD : ∀ d : Directory, (d.item id).time = (d.entries[id]?.map (·.time)).getD 0 := by
    intro d
    rw [item, itemAt]
    cases d.entries[id]? <;> rfl
  rw [hgetD, hgetD, h.time_eq b hb id hhead]

theorem headRanks_eq (h : d.SameHeads d') : d'.headRanks = d.headRanks := by
  ext rank
  simp only [headRanks, Set.mem_ofPred_eq, h.binCount_eq]
  refine exists_congr fun b => and_congr_right fun hb => exists_congr fun id => ?_
  rw [h.headOf_eq b hb]
  refine and_congr_right fun hhead => ?_
  rw [h.item_time_eq hb hhead]

theorem victim_eq (h : d.SameHeads d') (hheads : d.ValidHeads) : d'.victim = d.victim := by
  have hheads' := h.validHeads hheads
  rcases victim_cases hheads with ⟨heq, hnone⟩ | ⟨v, heq, _⟩
  · rw [heq, victim_eq_none_iff hheads', h.binCount_eq]
    intro b hb
    rw [h.headOf_eq b hb, hnone b hb]
  · obtain ⟨hbin, hhead, htime, hleast⟩ := (victim_eq_some_iff hheads v).1 heq
    rw [heq, victim_eq_some_iff hheads', h.binCount_eq, h.headOf_eq v.bin hbin,
      h.item_time_eq hbin hhead, h.headRanks_eq]
    exact ⟨hbin, hhead, htime, hleast⟩

end SameHeads

/-- A scan always answers: with nothing if all bins are empty, and otherwise with the head that is
least by time and then by bin. Neither the spare chain nor what is linked behind the heads makes a
difference. -/
theorem victim_isLeast (hheads : d.ValidHeads) :
    (∃ choice, d.victim = .ok choice) ∧
    (d.victim = .ok none ↔ ∀ b < d.binCount, d.headOf b = none) ∧
    (∀ v, d.victim = .ok (some v) ↔ v.bin < d.binCount ∧ d.headOf v.bin = some v.id ∧
      v.time = (d.item v.id).time ∧ IsLeast d.headRanks (toLex (v.time, v.bin))) ∧
    ∀ d', d.SameHeads d' → d'.victim = d.victim := by
  refine ⟨?_, victim_eq_none_iff hheads, victim_eq_some_iff hheads,
    fun d' h => h.victim_eq hheads⟩
  rcases victim_cases hheads with ⟨heq, _⟩ | ⟨v, heq, _⟩
  · exact ⟨_, heq⟩
  · exact ⟨_, heq⟩

/-- Two of three bins are occupied, and their heads have one time. An older entry is linked behind
the first head, and the oldest one is spare. -/
def tied : Directory :=
  ⟨#[some 2, none, some 0], some 1,
    #[{ time := 7 }, { time := 1 }, { next := some 3, time := 7 }, { time := 2 }]⟩

/-- The head of the lower bin is chosen, with or without the older entries. -/
theorem victim_isLeast_tied : tied.victim = .ok (some ⟨0, 2, 7⟩) ∧
    IsLeast tied.headRanks (toLex (7, 0)) ∧
    victim { tied with spare := none, entries := #[{ time := 7 }, {}, { time := 7 }] } =
      .ok (some ⟨0, 2, 7⟩) := by
  have hheads : tied.ValidHeads := by
    show ∀ b < 3, ∀ id ∈ tied.headOf b, id < 4
    decide
  have hvictim : tied.victim = .ok (some ⟨0, 2, 7⟩) := rfl
  obtain ⟨-, -, hsome, hsame⟩ := victim_isLeast hheads
  refine ⟨hvictim, ((hsome _).1 hvictim).2.2.2, (hsame _ ⟨rfl, fun _ _ => rfl, ?_⟩).trans hvictim⟩
  decide

end Directory
end BlockCache

import BlockCache.Proofs.Directory.Walks
import Mathlib.Data.ENat.Lattice
import Mathlib.Data.Seq.Basic

/-!
# Journey — following links without a bound

* `journey entries head` — the entries met from `head` on, link by link, as a sequence that may have
  no end.
* `Circles s first period` — after `first` members the sequence `s` repeats the next `period` ones
  without end.

A trail lists the beginning of a journey (`ids_walk`). Where no link is dangling, a journey meets
new entries until it ends or comes back to one of them, and there are only so many entries
(`Closed.ends_or_circles`). So the bound on the steps never cuts a chain that ends, and a chain that
is cut runs in a circle (`Directory.chainFrom_lists_journey`).
-/

namespace BlockCache

open Stream'.Seq

variable {entries : Array Entry} {head last next : Option Nat} {ids : List Nat} {id : Nat}

/-! ## Journeys -/

/-- The entries met from `head` on, link by link, for as long as there is another one. -/
def journey (entries : Array Entry) (head : Option Nat) : Stream'.Seq Nat :=
  corec (fun current => current.bind fun id => (link entries id).map (id, ·)) head

theorem journey_none : journey entries none = nil :=
  corec_nil _ _ rfl

theorem journey_of_link (h : link entries id = some next) :
    journey entries (some id) = cons id (journey entries next) := by
  apply corec_cons
  rw [Option.bind_some, h]
  rfl

theorem journey_of_no_entry (h : link entries id = none) :
    journey entries (some id) = nil := by
  apply corec_nil
  rw [Option.bind_some, h]
  rfl

/-- A trail lists the beginning of the journey, wherever the links lead. -/
theorem ids_walk (entries : Array Entry) (steps : Nat) (head : Option Nat) :
    (Trail.walk entries steps head).ids = (journey entries head).take steps := by
  induction steps generalizing head with
  | zero => rfl
  | succ steps ih =>
      cases head with
      | none =>
          rw [journey_none, take_nil]
          rfl
      | some id =>
          cases he : entries[id]? with
          | none =>
              have hlink : link entries id = none := by rw [link, he]; rfl
              rw [journey_of_no_entry hlink, take_nil]
              simp only [Trail.walk, he]
          | some e =>
              have hlink : link entries id = some e.next := link_eq_some_iff.2 ⟨e, he, rfl⟩
              rw [journey_of_link hlink, take_succ_cons, ← ih]
              simp only [Trail.walk, he]

namespace Leads

theorem take_journey (h : Leads entries head ids last) :
    (journey entries head).take ids.length = ids := by
  induction ids generalizing head with
  | nil => rfl
  | cons id ids ih =>
      obtain ⟨rfl, next, hlink, hrest⟩ := h
      rw [journey_of_link hlink, List.length_cons, take_succ_cons, ih hrest]

theorem drop_journey (h : Leads entries head ids last) :
    (journey entries head).drop ids.length = journey entries last := by
  induction ids generalizing head with
  | nil =>
      obtain rfl : head = last := h
      rfl
  | cons id ids ih =>
      obtain ⟨rfl, next, hlink, hrest⟩ := h
      rw [journey_of_link hlink, List.length_cons, drop_succ_cons, ih hrest]

theorem length_journey (h : Leads entries head ids none) :
    (journey entries head).length' = ids.length := by
  induction ids generalizing head with
  | nil =>
      obtain rfl : head = none := h
      rw [journey_none, length'_nil]
      rfl
  | cons id ids ih =>
      obtain ⟨rfl, next, hlink, hrest⟩ := h
      rw [journey_of_link hlink, length'_cons, ih hrest, List.length_cons, Nat.cast_succ]

end Leads

/-! ## Journeys without end -/

/-- After `first` members the sequence goes round in a circle of `period` members, without end. All
these members differ, so it never comes back to the first ones. -/
structure Circles (s : Stream'.Seq Nat) (first period : Nat) : Prop where
  endless : ¬ s.Terminates
  period_pos : 0 < period
  nodup : (s.take (first + period)).Nodup
  drop_eq : s.drop (first + period) = s.drop first

/-- A sequence that comes round to a place where it has a member never ends. -/
theorem not_terminates_of_drop_eq {s : Stream'.Seq Nat} {first period : Nat}
    (hfirst : first < s.length') (hperiod : 0 < period)
    (hdrop : s.drop (first + period) = s.drop first) : ¬ s.Terminates := by
  intro hends
  -- Otherwise as much would be left after `first` members as after `period` more.
  have hlength := congrArg length' hdrop
  rw [drop_length', drop_length'] at hlength
  rw [length'_of_terminates hends] at hlength hfirst
  norm_cast at hlength hfirst
  omega

/-- A chain that comes back to the entry `id` runs in the circle that begins there. -/
theorem Leads.circles {stem loop : List Nat}
    (h : Leads entries head (stem ++ id :: loop) (some id)) (hnodup : (stem ++ id :: loop).Nodup) :
    Circles (journey entries head) stem.length (loop.length + 1) := by
  have hlength : (stem ++ id :: loop).length = stem.length + (loop.length + 1) :=
    List.length_append
  obtain ⟨_, hstem, rfl, next, hlink, _⟩ := Leads.append_iff.1 h
  -- Behind the stem, and once round from there, lies the journey from `id`.
  have hfirst : (journey entries head).drop stem.length = journey entries (some id) :=
    hstem.drop_journey
  have hround : (journey entries head).drop (stem.length + (loop.length + 1)) =
      (journey entries head).drop stem.length := by
    rw [hfirst, ← hlength, h.drop_journey]
  have hmember : (journey entries head).get? stem.length = some id := by
    rw [← head_dropn, hfirst, journey_of_link hlink, head_cons]
  refine ⟨?_, Nat.succ_pos _, ?_, hround⟩
  · exact not_terminates_of_drop_eq (lt_length'_iff.2 ⟨id, hmember⟩) (Nat.succ_pos _) hround
  · rw [← hlength, h.take_journey]
    exact hnodup

/-- A chain that has met different entries so far ends at some time, or comes back to an entry that
it has met by then. -/
theorem Leads.ends_or_returns (hclosed : Closed entries) (steps : Nat)
    (hleads : Leads entries head ids last) (hnodup : ids.Nodup)
    (hlast : ∀ id ∈ last, id < entries.size) (hsteps : entries.size < ids.length + steps) :
    (∃ ids, Leads entries head ids none) ∨
      ∃ stem id loop, Leads entries head (stem ++ id :: loop) (some id) ∧
        (stem ++ id :: loop).Nodup := by
  -- Each step meets an entry that is new, and after `steps` of them there would be too many.
  induction steps generalizing ids last with
  | zero =>
      have hlength := hleads.length_le_of_nodup hnodup
      omega
  | succ steps ih =>
      cases last with
      | none => exact Or.inl ⟨ids, hleads⟩
      | some id =>
          by_cases hmet : id ∈ ids
          · obtain ⟨stem, loop, rfl⟩ := List.append_of_mem hmet
            exact Or.inr ⟨stem, id, loop, hleads, hnodup⟩
          · obtain ⟨next, hlink⟩ := exists_link (hlast id rfl)
            have hlonger : Leads entries head (ids ++ [id]) next :=
              Leads.snoc_iff.2 ⟨hleads, hlink⟩
            have hnodup' : (ids ++ [id]).Nodup := by
              rw [← List.concat_eq_append]
              exact hnodup.concat hmet
            refine ih hlonger hnodup' (fun x hx => hclosed id x (hx ▸ hlink)) ?_
            rw [List.length_append, List.length_singleton]
            omega

/-- A journey ends, or it comes round when it has met every entry at the latest. -/
theorem Closed.ends_or_circles (hclosed : Closed entries) (hhead : ∀ id ∈ head, id < entries.size) :
    (∃ ids, Leads entries head ids none) ∨
      ∃ first period, first + period ≤ entries.size ∧
        Circles (journey entries head) first period := by
  have hstart : Leads entries head [] head := rfl
  have hsteps : entries.size < ([] : List Nat).length + (entries.size + 1) := by
    rw [List.length_nil]
    omega
  rcases hstart.ends_or_returns hclosed _ List.nodup_nil hhead hsteps with
    hends | ⟨stem, id, loop, hleads, hnodup⟩
  · exact Or.inl hends
  · refine Or.inr ⟨stem.length, loop.length + 1, ?_, hleads.circles hnodup⟩
    rw [← List.length_cons, ← List.length_append]
    exact hleads.length_le_of_nodup hnodup

namespace Directory

variable {d : Directory}

theorem chainFrom_eq (hclosed : Closed d.entries) (hhead : ∀ id ∈ head, id < d.capacity) :
    d.chainFrom head = .ok ((journey d.entries head).take d.capacity) := by
  obtain ⟨ids, _, hwalk, _⟩ := hclosed.walk_spec d.capacity head hhead
  have hids := ids_walk d.entries d.capacity head
  rw [hwalk] at hids
  rw [chainFrom, trailFrom, hwalk, ← hids]
  rfl

/-- A chain lists all of its journey, or as much of it as there are entries if that is less. A
journey that ends is listed to its end and meets no entry twice; the list is cut short exactly if
the journey runs in a circle. -/
theorem chainFrom_lists_journey (hlinks : ∀ e ∈ d.entries, ∀ next ∈ e.next, next < d.capacity)
    (hhead : ∀ id ∈ head, id < d.capacity) :
    ∃ n : Nat, (n : ENat) = min (journey d.entries head).length' d.capacity ∧
      d.chainFrom head = .ok ((journey d.entries head).take n) ∧
      ((journey d.entries head).Terminates →
        (journey d.entries head).length' ≤ d.capacity ∧
          (n : ENat) = (journey d.entries head).length' ∧
          ((journey d.entries head).take n).Nodup) ∧
      ((n : ENat) < (journey d.entries head).length' ↔
        ∃ first period, first + period ≤ d.capacity ∧
          Circles (journey d.entries head) first period) := by
  have hclosed : Closed d.entries := closed_of_mem hlinks
  have hchain := chainFrom_eq hclosed hhead
  rcases hclosed.ends_or_circles hhead with ⟨ids, hleads⟩ | ⟨first, period, hle, hcircles⟩
  · -- The chain ends, and the steps suffice to come to its end.
    have hlength : (journey d.entries head).length' = ids.length := hleads.length_journey
    have hle : ids.length ≤ d.capacity := hleads.length_le
    have hends : (journey d.entries head).Terminates := ⟨_, length'_le_iff.1 hlength.le⟩
    have htake : (journey d.entries head).take d.capacity = ids := by
      rw [← ids_walk, hleads.walk_eq hle]
    refine ⟨ids.length, ?_, ?_, fun _ => ⟨?_, hlength.symm, ?_⟩, ?_⟩
    · rw [hlength, min_eq_left (Nat.cast_le.2 hle)]
    · rw [hchain, htake, hleads.take_journey]
    · rw [hlength]
      exact Nat.cast_le.2 hle
    · rw [hleads.take_journey]
      exact hleads.nodup
    · rw [hlength]
      refine iff_of_false (lt_irrefl _) ?_
      rintro ⟨_, _, _, hcircles⟩
      exact hcircles.endless hends
  · -- The chain never ends, and is cut off when the steps are used up.
    have hlength : (journey d.entries head).length' = ⊤ :=
      length'_of_not_terminates hcircles.endless
    refine ⟨d.capacity, ?_, hchain, fun hends => absurd hends hcircles.endless, ?_⟩
    · rw [hlength, min_eq_right le_top]
    · rw [hlength]
      exact iff_of_true (ENat.natCast_lt_top _) ⟨first, period, hle, hcircles⟩

/-- The entry 0 leads into the circle of the entries 1 and 2, and the entry 3 is a chain of its
own. -/
def circling : Directory :=
  ⟨#[some 0, some 3], none, #[{ next := some 1 }, { next := some 2 }, { next := some 1 }, {}]⟩

theorem chainFrom_lists_journey_circling :
    circling.chainFrom (some 0) = .ok [0, 1, 2, 1] ∧
    (∃ first period, first + period ≤ 4 ∧
      Circles (journey circling.entries (some 0)) first period) ∧
    circling.chainFrom (some 3) = .ok [3] ∧
    (journey circling.entries (some 3)).length' ≤ 4 := by
  have hlinks : ∀ e ∈ circling.entries, ∀ next ∈ e.next, next < circling.capacity := by decide
  have hfirst : ∀ id ∈ (some 0 : Option Nat), id < circling.capacity := by decide
  have hlast : ∀ id ∈ (some 3 : Option Nat), id < circling.capacity := by decide
  have hlist : circling.chainFrom (some 0) = .ok [0, 1, 2, 1] := rfl
  obtain ⟨n, -, hchain, hends, hcut⟩ := chainFrom_lists_journey hlinks hfirst
  obtain ⟨m, -, hchain', hends', -⟩ := chainFrom_lists_journey hlinks hlast
  refine ⟨hlist, hcut.1 ?_, ?_⟩
  · -- The entry 1 is listed twice, so the journey does not end.
    have hendless : ¬ (journey circling.entries (some 0)).Terminates := by
      intro h
      obtain ⟨-, -, hnodup⟩ := hends h
      rw [← Except.ok.inj (hlist.symm.trans hchain)] at hnodup
      exact absurd hnodup (by decide)
    rw [length'_of_not_terminates hendless]
    exact ENat.natCast_lt_top n
  · have hleads : Leads circling.entries (some 3) [3] none := ⟨rfl, none, rfl, rfl⟩
    have hlength : (journey circling.entries (some 3)).length' = 1 := hleads.length_journey
    obtain ⟨hle, hm, -⟩ := hends' ⟨1, length'_le_iff.1 hlength.le⟩
    rw [hlength, Nat.cast_eq_one] at hm
    rw [hm] at hchain'
    exact ⟨hchain'.trans (congrArg Except.ok hleads.take_journey), hle⟩

end Directory
end BlockCache

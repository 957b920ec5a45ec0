import BlockCache.Proofs.Cache.Trace

/-!
# Recall — a cache remembers what its history says

Which bytes a cache has for a key is told by the turns alone: those of the last successful put of
the key, unless the cache was emptied or reported an eviction of the key since.
`Remembers turns k d` says so of a history, `c.Holds lists k d` of a cache; one step changes both in
the same way (`remembers_snoc`, `Step.holds_iff`), so they agree at the end of every run.
-/

namespace BlockCache

/-! ## What a history says -/

namespace Turn

/-- A successful put of `d` under `k`. -/
def Stores (t : Turn) (k : UInt32) (d : ByteArray) : Prop :=
  t.request = .put k d ∧ ∃ stored, t.answer = .stored (.ok stored)

/-- An eviction that names `k` is reported. -/
def Evicts (t : Turn) (k : UInt32) : Prop :=
  ∃ e, .evicted e ∈ t.events ∧ e.key = k

/-- What was stored under `k` before is gone or replaced. -/
def Ends (t : Turn) (k : UInt32) : Prop :=
  t.request = .empty ∨ (∃ d, t.Stores k d) ∨ t.Evicts k

/-- A turn that neither puts, empties nor evicts anything. -/
structure Idle (t : Turn) : Prop where
  request : t.request ≠ .empty
  answer : ∀ stored, t.answer ≠ .stored (.ok stored)
  events : ∀ e, .evicted e ∉ t.events

theorem Idle.not_stores {t : Turn} (h : t.Idle) (k : UInt32) (d : ByteArray) : ¬ t.Stores k d := by
  rintro ⟨_, stored, hanswer⟩
  exact h.answer stored hanswer

theorem Idle.not_ends {t : Turn} (h : t.Idle) (k : UInt32) : ¬ t.Ends k := by
  rintro (hrequest | ⟨d, hstores⟩ | ⟨e, hevents, _⟩)
  · exact h.request hrequest
  · exact h.not_stores k d hstores
  · exact h.events e hevents

end Turn

/-- There is a successful put of `d` under `k` after which nothing has ended what it stored. -/
def Remembers (turns : List Turn) (k : UInt32) (d : ByteArray) : Prop :=
  ∃ before turn after, turns = before ++ turn :: after ∧ turn.Stores k d ∧ ∀ t ∈ after, ¬ t.Ends k

theorem remembers_snoc {turns : List Turn} {t : Turn} {k : UInt32} {d : ByteArray} :
    Remembers (turns ++ [t]) k d ↔ t.Stores k d ∨ ¬ t.Ends k ∧ Remembers turns k d := by
  constructor
  · -- The put is the last turn, or the last turn comes after it.
    rintro ⟨before, turn, after, hturns, hstores, hafter⟩
    rcases List.eq_nil_or_concat after with rfl | ⟨after, last, rfl⟩
    · obtain ⟨_, hlast⟩ := List.append_inj' hturns rfl
      cases hlast
      exact Or.inl hstores
    · rw [List.concat_eq_append, ← List.cons_append, ← List.append_assoc] at hturns
      obtain ⟨rfl, hlast⟩ := List.append_inj' hturns rfl
      cases hlast
      simp only [List.concat_eq_append, List.forall_mem_append, List.forall_mem_singleton] at hafter
      exact Or.inr ⟨hafter.2, before, turn, after, rfl, hstores, hafter.1⟩
  · rintro (hstores | ⟨hends, before, turn, after, rfl, hstores, hafter⟩)
    · exact ⟨turns, t, [], rfl, hstores, by simp⟩
    · refine ⟨before, turn, after ++ [t], by simp, hstores, ?_⟩
      exact List.forall_mem_append.2 ⟨hafter, List.forall_mem_singleton.2 hends⟩

theorem Turn.Stores.ends {t : Turn} {k : UInt32} {d : ByteArray} (h : t.Stores k d) : t.Ends k :=
  Or.inr (Or.inl ⟨d, h⟩)

/-- Turns that end nothing under a key do not change what is remembered for it. -/
theorem remembers_append_iff {before after : List Turn} {k : UInt32} {d : ByteArray}
    (h : ∀ t ∈ after, ¬ t.Ends k) : Remembers (before ++ after) k d ↔ Remembers before k d := by
  induction after generalizing before with
  | nil => rw [List.append_nil]
  | cons t after ih =>
      rw [List.forall_mem_cons] at h
      have hstores : ¬ t.Stores k d := fun hstores => h.1 hstores.ends
      rw [List.append_cons, ih h.2, remembers_snoc, or_iff_right hstores, and_iff_right h.1]

namespace Cache

variable {c c' : Cache} {lists lists' : Nat → List Nat} {turns : List Turn} {turn : Turn}
  {k : UInt32} {d : ByteArray}

/-! ## What a cache has -/

theorem not_holds_blank (h : c.catalog.directory.binCount = c.layout.binCount) :
    ¬ c.Holds (blankLists c.layout) k d := by
  rintro ⟨id, hid, _⟩
  rw [h, blankLists, Directory.rows_spareLists] at hid
  cases hid

/-- A put that evicted `es` on its way ends the item of its key and those that `es` names. -/
theorem put_ends_iff {key : UInt32} {data : ByteArray} {es : List Eviction} :
    Turn.Ends ⟨.put key data, .stored (.ok data), es.map .evicted⟩ k ↔
      k = key ∨ ∃ e ∈ es, e.key = k := by
  simp [Turn.Ends, Turn.Stores, Turn.Evicts, eq_comm]

theorem put_stores_iff {key : UInt32} {data : ByteArray} {es : List Eviction} :
    Turn.Stores ⟨.put key data, .stored (.ok data), es.map .evicted⟩ k d ↔
      k = key ∧ d = data := by
  simp [Turn.Stores, eq_comm]

/-- A step gives a key the bytes that it stores, and leaves every key what the step does not end. -/
theorem Step.holds_iff (h : Step c lists turn c' lists') (hc : c.Sound lists [] []) :
    c'.Holds lists' k d ↔ turn.Stores k d ∨ ¬ turn.Ends k ∧ c.Holds lists k d := by
  have hidle : turn.Idle → (c'.Holds lists' k d ↔ c.Holds lists k d) →
      (c'.Holds lists' k d ↔ turn.Stores k d ∨ ¬ turn.Ends k ∧ c.Holds lists k d) := by
    intro hturn hsame
    simp only [hsame, hturn.not_stores k d, hturn.not_ends k, false_or, not_false_eq_true,
      true_and]
  cases h with
  | stored hputs =>
      rw [hputs.holds_iff hc, put_stores_iff, put_ends_iff]
      push Not
      rw [and_assoc, and_comm (a := c.Holds lists k d)]
  | rejected hevents =>
      exact hidle ⟨by simp, by simp, hevents⟩ Iff.rfl
  | hit _ _ _ hbins hitems _ =>
      apply hidle ⟨by simp, by simp, by simp⟩
      exact holds_congr hbins rfl (Directory.item_of_stamped hitems)
  | missed _ => exact hidle ⟨by simp, by simp, by simp⟩ Iff.rfl
  | checked _ => exact hidle ⟨by simp, by simp, by simp⟩ Iff.rfl
  | emptied =>
      -- Nothing is left, so nothing has to be said about what was held before.
      have hnone : ¬ c.empty.cache.Holds (blankLists c.layout) k d :=
        not_holds_blank hc.empty_sound.bins_eq
      have hstores : ¬ Turn.Stores ⟨.empty, .emptied, [.emptied c.layout.storeLength]⟩ k d := by
        simp [Turn.Stores]
      have hends : Turn.Ends ⟨.empty, .emptied, [.emptied c.layout.storeLength]⟩ k := Or.inl rfl
      simp only [hnone, hstores, hends, not_true_eq_false, false_and, or_false]
  | reported => exact hidle ⟨by simp, by simp, by simp⟩ Iff.rfl
  | measured => exact hidle ⟨by simp, by simp, by simp⟩ Iff.rfl

/-- A turn empties the cache, stores an item, or does neither and evicts nothing. -/
theorem Step.idle_cases (h : Step c lists turn c' lists') :
    turn.request = .empty ∨ (∃ k d, turn.Stores k d) ∨ turn.Idle := by
  cases h with
  | stored _ => exact Or.inr (Or.inl ⟨_, _, rfl, _, rfl⟩)
  | emptied => exact Or.inl rfl
  | rejected hnone => exact Or.inr (Or.inr ⟨by simp, by simp, hnone⟩)
  | _ => exact Or.inr (Or.inr ⟨by simp, by simp, by simp⟩)

/-- A put that succeeds answers the bytes that it was given. -/
theorem Step.stored_eq {stored : ByteArray} (h : Step c lists turn c' lists')
    (hrequest : turn.request = .put k d) (hanswer : turn.answer = .stored (.ok stored)) :
    stored = d := by
  cases h <;> cases hrequest <;> cases hanswer
  rfl

/-- What a cache holds at the end of a trace is what the turns say. -/
theorem Trace.holds_iff (h : Trace turns c lists) :
    c.Holds lists k d ↔ Remembers turns k d := by
  induction h generalizing d with
  | fresh hfresh =>
      apply iff_of_false (not_holds_blank hfresh.sound.1.bins_eq)
      rintro ⟨before, turn, after, hnil, _⟩
      simp at hnil
  | step htrace hstep ih => rw [hstep.holds_iff htrace.sound, remembers_snoc, ih]

theorem Trace.stored_eq (h : Trace turns c lists) :
    ∀ t ∈ turns, ∀ (k : UInt32) (d stored : ByteArray), t.request = .put k d →
      t.answer = .stored (.ok stored) → stored = d := by
  induction h with
  | fresh _ => simp
  | step _ hstep ih =>
      refine List.forall_mem_append.2 ⟨ih, List.forall_mem_singleton.2 ?_⟩
      exact fun _ _ _ hrequest hanswer => hstep.stored_eq hrequest hanswer

/-! ## What a cache answers -/

theorem Trace.get_remembered (h : Trace turns c lists) (hd : Remembers turns k d) :
    (c.time + 1 < Word.limit → ∃ c', c.get k = .ok ⟨some d, c', []⟩) ∧
      (Word.limit ≤ c.time + 1 → c.get k = .error (c.interruption .overflow)) := by
  have hholds := h.holds_iff.2 hd
  refine ⟨fun htime => ?_, h.sound.get_overflow hholds⟩
  obtain ⟨_, _, hget, _⟩ := h.sound.get_found hholds htime
  exact ⟨_, hget⟩

theorem Trace.get_forgotten (h : Trace turns c lists) (hnone : ¬ ∃ d, Remembers turns k d) :
    (c.counters.misses + 1 < Word.limit → ∃ c', c.get k = .ok ⟨none, c', []⟩) ∧
      (Word.limit ≤ c.counters.misses + 1 → c.get k = .error (c.interruption .overflow)) := by
  have hfree : ¬ ∃ d, c.Holds lists k d := by
    rintro ⟨d, hd⟩
    exact hnone ⟨d, h.holds_iff.1 hd⟩
  exact ⟨fun hcount => ⟨_, h.sound.get_missed hfree hcount⟩, h.sound.get_missed_overflow hfree⟩

/-- Whatever a lookup answers is what the turns say. -/
theorem Trace.get_answer_iff {o : Outcome (Option ByteArray)} (h : Trace turns c lists)
    (hget : c.get k = .ok o) : o.answer = some d ↔ Remembers turns k d := by
  by_cases hsome : ∃ d, Remembers turns k d
  · rcases hsome with ⟨d', hd'⟩
    rcases Nat.lt_or_ge (c.time + 1) Word.limit with htime | htime
    · obtain ⟨c', hok⟩ := (h.get_remembered hd').1 htime
      rw [hok] at hget
      cases hget
      constructor
      · rintro ⟨⟩
        exact hd'
      · intro hd
        rw [h.sound.holds_unique (h.holds_iff.2 hd') (h.holds_iff.2 hd)]
    · rw [(h.get_remembered hd').2 htime] at hget
      cases hget
  · refine iff_of_false (fun hanswer => ?_) fun hd => hsome ⟨d, hd⟩
    rcases Nat.lt_or_ge (c.counters.misses + 1) Word.limit with hcount | hcount
    · obtain ⟨c', hok⟩ := (h.get_forgotten hsome).1 hcount
      rw [hok] at hget
      cases hget
      cases hanswer
    · rw [(h.get_forgotten hsome).2 hcount] at hget
      cases hget

/-- Between two moments a key is found with the same bytes, or found to be missing both times,
unless a turn between them ends what was stored under it. -/
theorem Trace.recalls_alike {before after : List Turn} {c₁ : Cache} {lists₁ : Nat → List Nat}
    (h : Trace (before ++ after) c lists) (h₁ : Trace before c₁ lists₁)
    (hafter : ∀ t ∈ after, ¬ t.Ends k) :
    c₁.contains k = c.contains k ∧
      ∀ o₁ o, c₁.get k = .ok o₁ → c.get k = .ok o → o.answer = o₁.answer := by
  -- Each cache has what its turns say, and both histories say the same of the key.
  have hsame : ∀ d, Remembers (before ++ after) k d ↔ Remembers before k d := fun _ =>
    remembers_append_iff hafter
  constructor
  · obtain ⟨b₁, hcontains₁, hb₁⟩ := h₁.sound.contains_spec k
    obtain ⟨b, hcontains, hb⟩ := h.sound.contains_spec k
    simp only [h₁.holds_iff] at hb₁
    simp only [h.holds_iff, hsame] at hb
    rw [hcontains₁, hcontains, Bool.eq_iff_iff.2 (hb₁.trans hb.symm)]
  · intro o₁ o hget₁ hget
    refine Option.ext fun d => ?_
    rw [h.get_answer_iff hget, h₁.get_answer_iff hget₁, hsame]

/-- After every run, a key is found with the bytes that the turns say, and is found to be missing if
they say none. A hit takes a tick of the clock and a miss is counted; a lookup stops only at the
last tick, or when the counter of misses is full. Turns that neither store an item under the key nor
report its eviction nor empty the cache change nothing of this. -/
theorem run_recalls {c₀ : Cache} {requests : List Request} (hfresh : c₀.Fresh)
    (hrun : c₀.run requests = .ok (turns, c)) (k : UInt32) :
    (∀ d, Remembers turns k d →
      (c.time + 1 < Word.limit → ∃ c', c.get k = .ok ⟨some d, c', []⟩) ∧
      (Word.limit ≤ c.time + 1 → c.get k = .error (c.interruption .overflow))) ∧
    ((¬ ∃ d, Remembers turns k d) →
      (c.counters.misses + 1 < Word.limit → ∃ c', c.get k = .ok ⟨none, c', []⟩) ∧
      (Word.limit ≤ c.counters.misses + 1 → c.get k = .error (c.interruption .overflow))) ∧
    (∀ o, c.get k = .ok o → ∀ d, o.answer = some d ↔ Remembers turns k d) ∧
    (∃ b, c.contains k = .ok b ∧ (b = true ↔ ∃ d, Remembers turns k d)) ∧
    (∀ t ∈ turns, ∀ d stored, t.request = .put k d → t.answer = .stored (.ok stored) →
      stored = d) ∧
    ∀ before after, turns = before ++ after → (∀ t ∈ after, ¬ t.Ends k) →
      ∃ c₁, c₀.run (requests.take before.length) = .ok (before, c₁) ∧
        c₁.contains k = c.contains k ∧
        ∀ o₁ o, c₁.get k = .ok o₁ → c.get k = .ok o → o.answer = o₁.answer := by
  obtain ⟨lists, htrace⟩ := Trace.of_run hfresh hrun
  refine ⟨fun d => htrace.get_remembered, htrace.get_forgotten, fun o hget d => ?_, ?_, ?_, ?_⟩
  · exact htrace.get_answer_iff hget
  · obtain ⟨b, hcontains, hiff⟩ := htrace.sound.contains_spec k
    exact ⟨b, hcontains, hiff.trans (exists_congr fun _ => htrace.holds_iff)⟩
  · exact fun t ht d stored => htrace.stored_eq t ht k d stored
  · rintro before after rfl hafter
    obtain ⟨c₁, hbefore, _⟩ := run_append hrun
    obtain ⟨lists₁, htrace₁⟩ := Trace.of_run hfresh hbefore
    exact ⟨c₁, hbefore, htrace.recalls_alike htrace₁ hafter⟩

theorem run_recalls_one_item :
    ∃ turns c, smallest.run [.put 7 ⟨#[1]⟩] = .ok (turns, c) ∧
      (∃ c', c.get 7 = .ok ⟨some ⟨#[1]⟩, c', []⟩) ∧ ∃ c', c.get 8 = .ok ⟨none, c', []⟩ := by
  obtain ⟨turns, c, hrun, hremembers, hnone, htime, hmisses⟩ :
      ∃ turns c, smallest.run [.put 7 ⟨#[1]⟩] = .ok (turns, c) ∧ Remembers turns 7 ⟨#[1]⟩ ∧
        (¬ ∃ d, Remembers turns 8 d) ∧ c.time + 1 < Word.limit ∧
        c.counters.misses + 1 < Word.limit := by
    refine ⟨_, _, rfl, ⟨[], _, [], rfl, ⟨rfl, _, rfl⟩, by simp⟩, ?_, by decide, by decide⟩
    rintro ⟨d, before, turn, after, hturns, ⟨hrequest, _⟩, _⟩
    cases before with
    | nil =>
        cases hturns
        cases hrequest
    | cons x before => simp at hturns
  refine ⟨turns, c, hrun, ?_, ?_⟩
  · exact ((run_recalls fresh_smallest hrun 7).1 ⟨#[1]⟩ hremembers).1 htime
  · exact ((run_recalls fresh_smallest hrun 8).2.1 hnone).1 hmisses

/-- At the last tick a lookup stops, so not every run ends with a cache that answers what its
history says. -/
theorem run_recall_stops_at_last_tick :
    ¬ ∀ (c₀ c : Cache) (requests : List Request) (turns : List Turn), c₀.Fresh →
      c₀.run requests = .ok (turns, c) → ∀ (k : UInt32) (d : ByteArray), Remembers turns k d →
      ∃ c', c.get k = .ok ⟨some d, c', []⟩ := by
  intro hall
  obtain ⟨requests, turns, c, lists, hrun, hsound, hholds, _, htime⟩ := exists_last_tick
  have hstop := hsound.get_overflow hholds htime
  obtain ⟨lists', htrace⟩ := Trace.of_run fresh_smallest hrun
  -- What the cache contains does not depend on how its chains were found out.
  obtain ⟨b, hcontains, hb⟩ := hsound.contains_spec 0
  obtain ⟨b', hcontains', hb'⟩ := htrace.sound.contains_spec 0
  rw [hcontains] at hcontains'
  cases hcontains'
  obtain ⟨d, hd⟩ := hb'.1 (hb.2 ⟨_, hholds⟩)
  obtain ⟨c', hget⟩ :=
    hall smallest c requests turns fresh_smallest hrun 0 d (htrace.holds_iff.1 hd)
  rw [hstop] at hget
  cases hget

end Cache
end BlockCache

import BlockCache.Proofs.Cache.Counting
import BlockCache.Proofs.Cache.Order
import Mathlib.Data.List.DropRight

/-!
# Recency — the clock, and when items were used last

* `sinceEmptied turns` — the turns after the last one that emptied the cache;
* `lastUse turns k` — the position of the last turn that stored an item under `k` or found it;
* `Recent turns c lists` — the times of the items are below the clock, and they are in the order in
  which the items were used last.

A put and a hit give their item the time that the clock shows, and then the clock goes on; nothing
else writes a time. So the times of different items differ, and the choice of a victim never has to
look at the number of a bin (`clock_orders_uses`).
-/

namespace BlockCache

/-! ## What a history says -/

namespace Turn

def empties (t : Turn) : Bool :=
  match t.request with
  | .empty => true
  | _ => false

/-- An item is stored under `k`, or the item of `k` is found. -/
def usesKey (k : UInt32) (t : Turn) : Bool :=
  match t.request, t.answer with
  | .put key _, .stored (.ok _) => key == k
  | .get key, .found (some _) => key == k
  | _, _ => false

end Turn

variable {turns : List Turn} {t : Turn} {k k' : UInt32}

def sinceEmptied (turns : List Turn) : List Turn :=
  turns.rtakeWhile fun t => !t.empties

theorem ticksIn_sinceEmptied_snoc : ticksIn (sinceEmptied (turns ++ [t])) =
    if t.empties then 0 else ticksIn (sinceEmptied turns) + if t.ticks then 1 else 0 := by
  rw [sinceEmptied, List.rtakeWhile_concat]
  cases t.empties with
  | true => rfl
  | false => simp [ticksIn, sinceEmptied, List.countP_append, List.countP_singleton]

/-- A history goes on from its beginning, or from the last turn that emptied the cache. -/
theorem sinceEmptied_cases (turns : List Turn) : sinceEmptied turns = turns ∨
    ∃ before t, t.empties = true ∧ turns = before ++ t :: sinceEmptied turns := by
  have hsplit : turns.rdropWhile (fun t => !t.empties) ++ sinceEmptied turns = turns :=
    List.rdropWhile_append_rtakeWhile
  by_cases hnil : turns.rdropWhile (fun t => !t.empties) = []
  · rw [hnil] at hsplit
    exact Or.inl hsplit
  · have hlast := List.rdropWhile_last_not _ turns hnil
    rw [← List.dropLast_append_getLast hnil, List.append_assoc] at hsplit
    exact Or.inr ⟨_, _, by simpa using hlast, hsplit.symm⟩

theorem not_empties_of_mem_sinceEmptied (h : t ∈ sinceEmptied turns) : t.empties = false := by
  have hnot := List.mem_rtakeWhile_imp h
  simpa using hnot

/-- The position of the last turn that stored an item under `k` or found it. -/
def lastUse (turns : List Turn) (k : UInt32) : Option Nat :=
  lastTurn (Turn.usesKey k) turns

theorem lastUse_of_uses (h : t.usesKey k = true) :
    lastUse (turns ++ [t]) k = some turns.length := by
  rw [lastUse, lastTurn_snoc, if_pos h]

theorem lastUse_of_not_uses (h : t.usesKey k = false) :
    lastUse (turns ++ [t]) k = lastUse turns k := by
  rw [lastUse, lastTurn_snoc, h]
  rfl

/-- The last use of `k` comes before the last use of `k'`. -/
def UsedBefore (turns : List Turn) (k k' : UInt32) : Prop :=
  ∃ i j, lastUse turns k = some i ∧ lastUse turns k' = some j ∧ i < j

theorem UsedBefore.asymm (h : UsedBefore turns k k') : ¬ UsedBefore turns k' k := by
  rcases h with ⟨i, j, hi, hj, hlt⟩
  rintro ⟨j', i', hj', hi', hlt'⟩
  rw [hi] at hi'
  rw [hj] at hj'
  cases hi'
  cases hj'
  omega

/-- A key that is used now is used after every key that was used before. -/
theorem UsedBefore.of_uses {i : Nat} (hk : lastUse turns k = some i) (hother : t.usesKey k = false)
    (huses : t.usesKey k' = true) : UsedBefore (turns ++ [t]) k k' :=
  ⟨i, turns.length, (lastUse_of_not_uses hother).trans hk, lastUse_of_uses huses, lastTurn_lt hk⟩

/-- The heads of different bins have different times. -/
def Directory.Untied (d : Directory) : Prop :=
  ∀ b < d.binCount, ∀ b' < d.binCount, b ≠ b' → ∀ id id', d.head b = .ok (some id) →
    d.head b' = .ok (some id') → (d.item id).time ≠ (d.item id').time

namespace Cache

variable {c c' : Cache} {lists lists' : Nat → List Nat} {loose : List Nat} {held : List Extent}
  {id : Nat}

/-! ## The clock -/

theorem Step.clock_eq (h : Step c lists t c' lists') (time : Nat) :
    t.clock time = if t.empties then 0 else time + if t.ticks then 1 else 0 := by
  cases h <;> rfl

theorem Trace.time_eq (h : Trace turns c lists) : c.time = ticksIn (sinceEmptied turns) := by
  induction h with
  | fresh hfresh => exact hfresh.sound.2.1
  | step _ hstep ih => rw [ticksIn_sinceEmptied_snoc, ← ih, hstep.time_eq, hstep.clock_eq]

/-! ## The times of the items -/

/-- The item `id` has a smaller time than `id'`, and its key was used earlier. -/
def Older (turns : List Turn) (c : Cache) (id id' : Nat) : Prop :=
  (c.catalog.directory.item id).time < (c.catalog.directory.item id').time ∧
    UsedBefore turns (c.catalog.directory.item id).key (c.catalog.directory.item id').key

structure Recent (turns : List Turn) (c : Cache) (lists : Nat → List Nat) : Prop where
  below : ∀ id ∈ rows lists c.catalog.directory.binCount,
    (c.catalog.directory.item id).time < c.time
  used : ∀ id ∈ rows lists c.catalog.directory.binCount,
    ∃ i, lastUse turns (c.catalog.directory.item id).key = some i
  ordered : ∀ id ∈ rows lists c.catalog.directory.binCount,
    ∀ id' ∈ rows lists c.catalog.directory.binCount, id ≠ id' →
      Older turns c id id' ∨ Older turns c id' id

namespace Recent

theorem of_no_items (h : rows lists c.catalog.directory.binCount = []) : Recent turns c lists := by
  constructor <;> rw [h] <;> simp

theorem time_ne (h : Recent turns c lists) (hid : id ∈ rows lists c.catalog.directory.binCount)
    {id' : Nat} (hid' : id' ∈ rows lists c.catalog.directory.binCount) (hne : id ≠ id') :
    (c.catalog.directory.item id).time ≠ (c.catalog.directory.item id').time := by
  rcases h.ordered id hid id' hid' hne with hlt | hlt
  · exact Nat.ne_of_lt hlt.1
  · exact Nat.ne_of_gt hlt.1

theorem time_lt_iff (h : Recent turns c lists)
    (hid : id ∈ rows lists c.catalog.directory.binCount) {id' : Nat}
    (hid' : id' ∈ rows lists c.catalog.directory.binCount) (hne : id ≠ id') :
    (c.catalog.directory.item id).time < (c.catalog.directory.item id').time ↔
      UsedBefore turns (c.catalog.directory.item id).key (c.catalog.directory.item id').key := by
  rcases h.ordered id hid id' hid' hne with hold | hold
  · exact iff_of_true hold.1 hold.2
  · exact iff_of_false (Nat.lt_asymm hold.1) hold.2.asymm

/-- A turn that uses no key changes nothing, as long as it writes no time. -/
theorem idle (h : Recent turns c lists) (hnone : ∀ k, t.usesKey k = false)
    (htime : c'.time = c.time) (hdirectory : c'.catalog.directory = c.catalog.directory) :
    Recent (turns ++ [t]) c' lists := by
  have hsame : ∀ k, lastUse (turns ++ [t]) k = lastUse turns k := fun k =>
    lastUse_of_not_uses (hnone k)
  constructor
  · rw [hdirectory, htime]
    exact h.below
  · simp only [hdirectory, hsame]
    exact h.used
  · simp only [Older, UsedBefore, hdirectory, hsame]
    exact h.ordered

/-- One item gets the time of the clock, and its key is used; whatever else is an item then was one
before, and its key is not used. -/
theorem touch (h : Recent turns c lists) (id : Nat)
    (hnow : (c'.catalog.directory.item id).time = c.time)
    (huses : t.usesKey (c'.catalog.directory.item id).key = true)
    (hothers : ∀ x ∈ rows lists' c'.catalog.directory.binCount, x ≠ id →
      x ∈ rows lists c.catalog.directory.binCount ∧
        c'.catalog.directory.item x = c.catalog.directory.item x ∧
        t.usesKey (c.catalog.directory.item x).key = false)
    (hclock : c'.time = c.time + 1) : Recent (turns ++ [t]) c' lists' := by
  -- Every other item is older than the one that is touched.
  have holder : ∀ x ∈ rows lists' c'.catalog.directory.binCount, x ≠ id →
      Older (turns ++ [t]) c' x id := by
    intro x hx hne
    obtain ⟨hrow, hitem, hother⟩ := hothers x hx hne
    obtain ⟨i, hi⟩ := h.used x hrow
    rw [Older, hitem, hnow]
    exact ⟨h.below x hrow, .of_uses hi hother huses⟩
  constructor
  · intro x hx
    by_cases hne : x = id
    · subst hne
      omega
    · obtain ⟨hrow, hitem, _⟩ := hothers x hx hne
      have hbelow := h.below x hrow
      rw [hitem]
      omega
  · intro x hx
    by_cases hne : x = id
    · subst hne
      exact ⟨_, lastUse_of_uses huses⟩
    · obtain ⟨i, _, hi, _⟩ := (holder x hx hne).2
      exact ⟨i, hi⟩
  · intro x hx y hy hxy
    by_cases hxid : x = id
    · subst hxid
      exact Or.inr (holder y hy (Ne.symm hxy))
    by_cases hyid : y = id
    · subst hyid
      exact Or.inl (holder x hx hxy)
    · obtain ⟨hxrow, hxitem, hxother⟩ := hothers x hx hxid
      obtain ⟨hyrow, hyitem, hyother⟩ := hothers y hy hyid
      simp only [Older, UsedBefore, hxitem, hyitem, lastUse_of_not_uses hxother,
        lastUse_of_not_uses hyother]
      exact h.ordered x hxrow y hyrow hxy

end Recent

theorem Step.recent (h : Step c lists t c' lists') (hc : c.Sound lists [] [])
    (hrecent : Recent turns c lists) : Recent (turns ++ [t]) c' lists' := by
  cases h with
  | @stored key data es id extent _ _ hputs =>
      have hself := hputs.item_self
      refine hrecent.touch id ?_ ?_ ?_ hputs.time_eq
      · rw [hself]
        rfl
      · rw [hself]
        exact beq_self_eq_true key
      · intro x hx hne
        obtain ⟨hrow, hstays⟩ := ((hputs.mem_rows_iff hc).1 hx).resolve_right hne
        exact ⟨hrow, hputs.item_of_survives hrow hstays, beq_false_of_ne (Ne.symm hstays.1)⟩
  | rejected _ => exact hrecent.idle (fun _ => rfl) rfl rfl
  | @hit key data id d' _ hid hkey hbins hitems _ =>
      have hself : d'.item id = { c.catalog.directory.item id with time := c.time } := by
        rw [hitems, Function.update_self]
      refine hrecent.touch id ?_ ?_ ?_ rfl
      · show (d'.item id).time = c.time
        rw [hself]
      · show Turn.usesKey (d'.item id).key _ = true
        rw [hself]
        exact beq_iff_eq.2 hkey.symm
      · intro x hx hne
        replace hx : x ∈ rows lists d'.binCount := hx
        rw [hbins] at hx
        refine ⟨hx, ?_, beq_false_of_ne fun heq => hne ?_⟩
        · show d'.item x = _
          rw [hitems, Function.update_of_ne hne]
        · exact hc.laid.keys x hx id hid (heq.symm.trans hkey.symm)
  | missed _ => exact hrecent.idle (fun _ => rfl) rfl rfl
  | checked _ => exact hrecent.idle (fun _ => rfl) rfl rfl
  | emptied => exact .of_no_items hc.empty_sound.rows_blank
  | reported => exact hrecent.idle (fun _ => rfl) rfl rfl
  | measured => exact hrecent.idle (fun _ => rfl) rfl rfl

theorem Trace.recent (h : Trace turns c lists) : Recent turns c lists := by
  induction h with
  | fresh hfresh => exact .of_no_items hfresh.sound.1.rows_blank
  | step htrace hstep ih => exact hstep.recent htrace.sound ih

/-! ## Turns that leave the times alone -/

/-- A turn in which the clock does not tick writes no time and moves no item, unless it empties the
cache. -/
theorem Step.idle_eq (h : Step c lists t c' lists') (hticks : t.ticks = false)
    (hempties : t.empties = false) : c'.time = c.time ∧ c'.catalog = c.catalog := by
  cases h with
  | stored _ => cases hticks
  | hit => cases hticks
  | emptied => cases hempties
  | _ => exact ⟨rfl, rfl⟩

/-! ## Heads without ties -/

/-- A head is an item of its bin. -/
theorem Sound.mem_of_head {b : Nat} (h : c.Sound lists loose held)
    (hb : b < c.catalog.directory.binCount) (hhead : c.catalog.directory.head b = .ok (some id)) :
    id ∈ lists b := by
  have hle := Nat.le_of_lt hb
  rw [Directory.head_eq hle, ← (h.laid.spells.leads b hle).head?_eq] at hhead
  exact List.mem_of_head? (Except.ok.inj hhead)

/-- No ties arise when items are lost. -/
theorem Recent.untied {keep : Nat → Prop} [DecidablePred keep] (h : Recent turns c lists)
    (hkeeps : c.Keeps lists keep c' lists') (hc' : c'.Sound lists' loose held) :
    c'.catalog.directory.Untied := by
  intro b hb b' hb' hne id id' hhead hhead'
  have hmem := hc'.mem_of_head hb hhead
  have hmem' := hc'.mem_of_head hb' hhead'
  have hids : id ≠ id' := by
    rintro rfl
    exact hne (hc'.laid.spells.apart b (Nat.le_of_lt hb) b' (Nat.le_of_lt hb') id hmem hmem')
  rw [hkeeps.items.item_eq]
  exact h.time_ne (hkeeps.mem_rows_iff.1 (mem_rows.2 ⟨b, hb, hmem⟩)).1
    (hkeeps.mem_rows_iff.1 (mem_rows.2 ⟨b', hb', hmem'⟩)).1 hids

/-! ## The order of uses -/

/-- The entry `id` is on the chain of a bin. -/
def Resident (c : Cache) (id : Nat) : Prop :=
  ∃ b < c.layout.binCount, ∃ ids, c.catalog.directory.chain b = .ok ids ∧ id ∈ ids

theorem Sound.resident_iff (h : c.Sound lists loose held) :
    c.Resident id ↔ id ∈ rows lists c.catalog.directory.binCount := by
  rw [Resident, mem_rows, ← h.bins_eq]
  refine exists_congr fun b => and_congr_right fun hb => ?_
  rw [h.laid.spells.chain_eq (Nat.le_of_lt hb)]
  simp

/-- After every run the clock shows how many items were stored or found since the cache was last
empty. The time of an item is less than that, and two items have different times, in the order in
which they were used last; a request that neither stores nor finds an item leaves all of this as it
is. So the heads of the bins never tie, not even between the evictions of a put. -/
theorem clock_orders_uses {c₀ : Cache} {requests : List Request} (hfresh : c₀.Fresh)
    (hrun : c₀.run requests = .ok (turns, c)) :
    c.time = ticksIn (sinceEmptied turns) ∧
    (∀ id, c.Resident id → (c.catalog.directory.item id).time < c.time ∧
      ∃ i, lastUse turns (c.catalog.directory.item id).key = some i) ∧
    (∀ id id', c.Resident id → c.Resident id' → id ≠ id' →
      (c.catalog.directory.item id).time ≠ (c.catalog.directory.item id').time ∧
      ((c.catalog.directory.item id).time < (c.catalog.directory.item id').time ↔
        UsedBefore turns (c.catalog.directory.item id).key
          (c.catalog.directory.item id').key)) ∧
    (∀ r o, c.perform r = .ok o → r ≠ .empty → Turn.ticks ⟨r, o.answer, o.events⟩ = false →
      o.cache.time = c.time ∧ o.cache.catalog = c.catalog) ∧
    c.catalog.directory.Untied ∧
    ∀ key found c₁ es c₂, c.forget key = .ok (found, c₁) →
      EvictsWhile (fun _ => True) c₁ es c₂ → c₂.catalog.directory.Untied := by
  obtain ⟨lists, htrace⟩ := Trace.of_run hfresh hrun
  have hsound := htrace.sound
  have hrecent := htrace.recent
  refine ⟨htrace.time_eq, fun id hid => ?_, fun id id' hid hid' hne => ?_,
    fun r o hperform hr hticks => ?_, ?_, fun key found c₁ es c₂ hforget hes => ?_⟩
  · rw [hsound.resident_iff] at hid
    exact ⟨hrecent.below id hid, hrecent.used id hid⟩
  · rw [hsound.resident_iff] at hid hid'
    exact ⟨hrecent.time_ne hid hid' hne, hrecent.time_lt_iff hid hid' hne⟩
  · obtain ⟨_, hstep⟩ := hsound.perform_step hperform
    refine hstep.idle_eq hticks ?_
    cases r with
    | empty => exact absurd rfl hr
    | _ => rfl
  · exact hrecent.untied (.refl c lists fun _ => trivial) hsound
  · obtain ⟨found', c₁', lists₁, hok, hsound₁, hkeeps₁, _⟩ := hsound.forget_spec key
    rw [hok] at hforget
    cases hforget
    obtain ⟨lists₂, hsound₂, hkeeps₂, _⟩ := hes.spec hsound₁
    exact hrecent.untied (hkeeps₁.trans hkeeps₂) hsound₂

/-- A hit makes the key 1 younger than the key 2, which was put after it. -/
theorem clock_orders_uses_hit :
    ∃ turns c, smallest.run [.put 1 ⟨#[1]⟩, .put 2 ⟨#[1]⟩, .get 3, .get 1] = .ok (turns, c) ∧
      c.time = 3 ∧ (c.catalog.directory.item 1).time < (c.catalog.directory.item 0).time ∧
      UsedBefore turns 2 1 := by
  obtain ⟨turns, c, hrun, hlayout, hticks, hchain, hold, hyoung, hlt⟩ : ∃ turns c,
      smallest.run [.put 1 ⟨#[1]⟩, .put 2 ⟨#[1]⟩, .get 3, .get 1] = .ok (turns, c) ∧
        c.layout = smallest.layout ∧ ticksIn (sinceEmptied turns) = 3 ∧
        c.catalog.directory.chain 0 = .ok [0, 1] ∧
        (c.catalog.directory.item 1).key = 2 ∧ (c.catalog.directory.item 0).key = 1 ∧
        (c.catalog.directory.item 1).time < (c.catalog.directory.item 0).time :=
    ⟨_, _, rfl, rfl, rfl, rfl, rfl, rfl, by decide⟩
  obtain ⟨htime, _, horder, _⟩ := clock_orders_uses fresh_smallest hrun
  have hresident : ∀ id ∈ [0, 1], c.Resident id := fun id hid =>
    ⟨0, by rw [hlayout]; decide, [0, 1], hchain, hid⟩
  have hiff := (horder 1 0 (hresident 1 (by simp)) (hresident 0 (by simp)) (by decide)).2
  rw [hold, hyoung] at hiff
  exact ⟨turns, c, hrun, htime.trans hticks, hlt, hiff.1 hlt⟩

end Cache
end BlockCache

import BlockCache.Proofs.Cache.Recall

/-!
# Twins — caches that differ in the bytes of their stores

No operation looks at the store before it has decided what to do, and what it reads there is an item
that it has written. So two caches that agree in everything but the contents of their stores, and
that have the same bytes for the same keys, cannot be told apart.

* `Lockstep R x x'` — `x` and `x'` answer, and `R` relates their answers, or they stop at one fault;
* `c.Alike c'` — `c'` is `c` with another store of the same length, its own or a borrowed one;
* `c.Twins c'` — two sound caches that are alike and hold the same bytes.

Each operation on its own is done in lockstep by caches that are alike. That the bytes they answer
are equal as well is read off the steps of twins (`Twins.perform`), and a run follows
(`Twins.run`).
-/

namespace BlockCache

/-! ## Lockstep -/

/-- Two computations that either both answer or both stop. Where a store came from does not matter
to the one that is asking, so an interruption may differ in it. -/
inductive Lockstep {α β : Type} (R : α → β → Prop) :
    Except Interruption α → Except Interruption β → Prop where
  | answers {a : α} {a' : β} : R a a' → Lockstep R (.ok a) (.ok a')
  | stops {i i' : Interruption} : i'.fault = i.fault → i'.len = i.len →
      Lockstep R (.error i) (.error i')

namespace Lockstep

variable {α α' β β' : Type} {R : α → α' → Prop} {S : β → β' → Prop} {x : Except Interruption α}
  {x₁ : Except Interruption α} {x' : Except Interruption α'}

theorem bind {f : α → Except Interruption β} {f' : α' → Except Interruption β'}
    (h : Lockstep R x x') (hrest : ∀ a a', R a a' → Lockstep S (f a) (f' a')) :
    Lockstep S (x >>= f) (x' >>= f') := by
  cases h with
  | answers hR => exact hrest _ _ hR
  | stops hfault hlen => exact .stops hfault hlen

theorem map (h : Lockstep Eq x x₁) (f : α → β) : Lockstep Eq (f <$> x) (f <$> x₁) := by
  cases h with
  | answers heq =>
      cases heq
      exact .answers rfl
  | stops hfault hlen => exact .stops hfault hlen

theorem mono {R' : α → α' → Prop} (h : Lockstep R x x')
    (hanswers : ∀ a a', x = .ok a → x' = .ok a' → R a a' → R' a a') : Lockstep R' x x' := by
  cases h with
  | answers hR => exact .answers (hanswers _ _ rfl rfl hR)
  | stops hfault hlen => exact .stops hfault hlen

/-- A test that comes out alike on both sides. -/
theorem ite {p : Prop} [Decidable p] {y : Except Interruption α} {y' : Except Interruption α'}
    (hthen : p → Lockstep R x x') (helse : ¬ p → Lockstep R y y') :
    Lockstep R (if p then x else y) (if p then x' else y') := by
  split_ifs with hp
  · exact hthen hp
  · exact helse hp

end Lockstep

/-- The same answer, except that the bytes of an item may be others. -/
inductive Answer.Resembles : Answer → Answer → Prop where
  | same (a : Answer) : Resembles a a
  | stored (d d' : ByteArray) : Resembles (.stored (.ok d)) (.stored (.ok d'))
  | found (d d' : ByteArray) : Resembles (.found (some d)) (.found (some d'))

namespace Cache

variable {c c' : Cache} {lists lists' : Nat → List Nat} {k : UInt32} {d d' : ByteArray}

/-! ## Caches that are alike -/

/-- `c'` is `c` but for what its store contains and whose store it is. -/
def Alike (c c' : Cache) : Prop :=
  ∃ store : Region, store.length = c.store.length ∧ c' = { c with store := store }

/-- Two outcomes with the same events, whose answers and caches are related. -/
def Match {α : Type} (T : Cache → Cache → Prop) (R : α → α → Prop) (o o' : Outcome α) : Prop :=
  ∃ answer' c', R o.answer answer' ∧ T o.cache c' ∧ o' = ⟨answer', c', o.events⟩

/-- The same value, with caches that are related. -/
def Beside {α : Type} (T : Cache → Cache → Prop) (p p' : α × Cache) : Prop :=
  ∃ c', T p.2 c' ∧ p' = (p.1, c')

namespace Alike

theorem interrupted {α : Type} {R : α → α → Prop} (h : c.Alike c') (fault : Fault) :
    Lockstep R (.error (c.interruption fault)) (.error (c'.interruption fault)) := by
  obtain ⟨store, _, rfl⟩ := h
  exact .stops rfl rfl

theorem during {α : Type} (h : c.Alike c') (step : Except Fault α) :
    Lockstep Eq (c.during step) (c'.during step) := by
  cases step with
  | ok a => exact .answers rfl
  | error fault => exact h.interrupted fault

/-- A step on a part that both have in common. -/
theorem during_bind {α β : Type} {S : β → β → Prop} {step : Except Fault α}
    {f f' : α → Except Interruption β} (h : c.Alike c') (hrest : ∀ a, Lockstep S (f a) (f' a)) :
    Lockstep S (c.during step >>= f) (c'.during step >>= f') := by
  refine (h.during step).bind ?_
  rintro a _ rfl
  exact hrest a

theorem tick (h : c.Alike c') : Lockstep (Beside Alike) c.tick c'.tick := by
  obtain ⟨store, hstore, rfl⟩ := h
  refine during_bind ⟨store, hstore, rfl⟩ fun next => ?_
  exact .answers ⟨_, ⟨store, hstore, rfl⟩, rfl⟩

/-! ### Making room -/

theorem evict (h : c.Alike c') : Lockstep (Match Alike Eq) c.evict c'.evict := by
  -- The other cache is this one with a store that is not looked at.
  have halike := h
  obtain ⟨store, hstore, rfl⟩ := h
  refine halike.during_bind fun ⟨found, catalog⟩ => ?_
  cases found with
  | none => exact .answers ⟨_, _, rfl, ⟨store, hstore, rfl⟩, rfl⟩
  | some e =>
      refine .ite (fun _ => ?_) fun _ => ?_
      · exact .stops rfl rfl
      · have hlost : Alike { c with catalog := catalog, len := c.len - 1 }
            { c with catalog := catalog, len := c.len - 1, store := store } := ⟨store, hstore, rfl⟩
        refine hlost.during_bind fun counters => ?_
        exact .answers ⟨_, _, rfl, ⟨store, hstore, rfl⟩, rfl⟩

theorem allocateWithin (h : c.Alike c') (length count : Nat) :
    Lockstep (Match Alike Eq) (c.allocateWithin length count) (c'.allocateWithin length count) := by
  induction count using Nat.strong_induction_on generalizing c c' with
  | _ count ih =>
      have hevict := h.evict
      obtain ⟨store, hstore, rfl⟩ := h
      unfold Cache.allocateWithin
      cases c.catalog.free.allocate length with
      | some block => exact .answers ⟨_, _, rfl, ⟨store, hstore, rfl⟩, rfl⟩
      | none =>
          refine hevict.bind ?_
          rintro ⟨found, c₁, events⟩ _ ⟨_, c₁', rfl, hc₁, rfl⟩
          cases found with
          | none => exact .answers ⟨_, _, rfl, hc₁, rfl⟩
          | some e =>
              -- Both have used up their count, or both go on with one less.
              cases count with
              | zero => exact hc₁.interrupted _
              | succ count =>
                  refine (ih count (Nat.lt_succ_self count) hc₁).bind ?_
                  rintro o _ ⟨_, c₂', rfl, hc₂, rfl⟩
                  exact .answers ⟨_, _, rfl, hc₂, rfl⟩

theorem claim (h : c.Alike c') : Lockstep (Beside Alike) c.claim c'.claim := by
  have halike := h
  obtain ⟨store, hstore, rfl⟩ := h
  refine halike.during_bind fun ⟨id, directory⟩ => ?_
  exact .answers ⟨_, ⟨store, hstore, rfl⟩, rfl⟩

theorem acquire (h : c.Alike c') : Lockstep (Match Alike Eq) c.acquire c'.acquire := by
  refine h.claim.bind ?_
  rintro ⟨id, c₁⟩ _ ⟨c₁', hc₁, rfl⟩
  cases id with
  | some id => exact .answers ⟨_, _, rfl, hc₁, rfl⟩
  | none =>
      refine hc₁.evict.bind ?_
      rintro ⟨found, c₂, events⟩ _ ⟨_, c₂', rfl, hc₂, rfl⟩
      cases found with
      | none => exact .answers ⟨_, _, rfl, hc₂, rfl⟩
      | some e =>
          refine hc₂.claim.bind ?_
          rintro ⟨id, c₃⟩ _ ⟨c₃', hc₃, rfl⟩
          exact .answers ⟨_, _, rfl, hc₃, rfl⟩

theorem forget (h : c.Alike c') (key : UInt32) :
    Lockstep (Beside Alike) (c.forget key) (c'.forget key) := by
  have halike := h
  obtain ⟨store, hstore, rfl⟩ := h
  refine halike.during_bind fun found => ?_
  cases found with
  | none => exact .answers ⟨_, ⟨store, hstore, rfl⟩, rfl⟩
  | some place =>
      refine halike.during_bind fun catalog => ?_
      refine .ite (fun _ => ?_) fun _ => ?_
      · exact .stops rfl rfl
      · exact .answers ⟨_, ⟨store, hstore, rfl⟩, rfl⟩

theorem allocate (h : c.Alike c') (length : Nat) :
    Lockstep (Match Alike Eq) (c.allocate length) (c'.allocate length) := by
  have hlen : c'.len = c.len := by
    obtain ⟨store, _, rfl⟩ := h
    rfl
  rw [Cache.allocate, Cache.allocate, hlen]
  exact h.allocateWithin length c.len

/-! ### Storing and looking up -/

theorem maxLength_eq (h : c.Alike c') : c'.maxLength = c.maxLength := by
  obtain ⟨store, _, rfl⟩ := h
  rfl

theorem write (h : c.Alike c') (offset : Nat) :
    Lockstep Alike (c.write offset d) (c'.write offset d) := by
  obtain ⟨store, hstore, rfl⟩ := h
  simp only [Cache.write, Region.fits_congr hstore]
  refine .ite (fun _ => ?_) fun _ => ?_
  · exact .answers ⟨store.overwrite offset d, hstore, rfl⟩
  · exact .stops rfl rfl

theorem read (h : c.Alike c') (offset count : Nat) :
    Lockstep (fun _ _ => True) (c.during (c.store.read offset count))
      (c'.during (c'.store.read offset count)) := by
  obtain ⟨store, hstore, rfl⟩ := h
  simp only [Region.read, Region.fits_congr hstore]
  cases c.store.fits offset count with
  | true => exact .answers trivial
  | false => exact .stops rfl rfl

theorem enter (h : c.Alike c') (id : Nat) (key : UInt32) (extent : Extent) (dataLength : Nat) :
    Lockstep Alike (c.enter id key extent dataLength) (c'.enter id key extent dataLength) := by
  refine h.tick.bind ?_
  rintro ⟨now, c₁⟩ _ ⟨c₁', hc₁, rfl⟩
  have halike := hc₁
  obtain ⟨store, hstore, rfl⟩ := hc₁
  refine halike.during_bind fun catalog => ?_
  refine halike.during_bind fun len => ?_
  exact .answers ⟨store, hstore, rfl⟩

theorem insert (h : c.Alike c') (key : UInt32) (data : ByteArray) (length : Nat) :
    Lockstep (Match Alike fun a a' => Answer.Resembles (.stored a) (.stored a'))
      (c.insert key data length) (c'.insert key data length) := by
  have hmax : c'.maxLength = c.maxLength := h.maxLength_eq
  unfold Cache.insert
  rw [hmax]
  refine (h.forget key).bind ?_
  rintro ⟨_, c₁⟩ _ ⟨c₁', hc₁, rfl⟩
  refine (hc₁.allocate length).bind ?_
  rintro ⟨space, c₂, events⟩ _ ⟨_, c₂', rfl, hc₂, rfl⟩
  cases space with
  | none => exact .answers ⟨_, _, .same _, hc₂, rfl⟩
  | some offset =>
      refine (hc₂.write offset).bind fun c₃ c₃' hc₃ => ?_
      refine hc₃.acquire.bind ?_
      rintro ⟨id, c₄, events'⟩ _ ⟨_, c₄', rfl, hc₄, rfl⟩
      cases id with
      | none =>
          have halike := hc₄
          obtain ⟨store, hstore, rfl⟩ := hc₄
          refine halike.during_bind fun free => ?_
          exact .answers ⟨_, _, .same _, ⟨store, hstore, rfl⟩, rfl⟩
      | some id =>
          -- What is read back may differ as far as it is known here.
          refine (hc₄.enter id key ⟨offset, length⟩ data.size).bind fun c₅ c₅' hc₅ => ?_
          refine (hc₅.read offset data.size).bind fun bytes bytes' _ => ?_
          exact .answers ⟨_, _, .stored _ _, hc₅, rfl⟩

theorem put (h : c.Alike c') (key : UInt32) (data : ByteArray) :
    Lockstep (Match Alike fun a a' => Answer.Resembles (.stored a) (.stored a'))
      (c.put key data) (c'.put key data) := by
  unfold Cache.put
  rw [h.maxLength_eq]
  refine .ite (fun _ => ?_) fun _ => ?_
  · exact .answers ⟨_, _, .same _, h, rfl⟩
  · cases (roundToGranule data.size).filter (· ≤ c.maxLength) with
    | some length => exact h.insert key data length
    | none => exact .answers ⟨_, _, .same _, h, rfl⟩

theorem get (h : c.Alike c') (key : UInt32) :
    Lockstep (Match Alike fun a a' => Answer.Resembles (.found a) (.found a'))
      (c.get key) (c'.get key) := by
  have htick := h.tick
  have halike := h
  obtain ⟨store, hstore, rfl⟩ := h
  refine halike.during_bind fun found => ?_
  cases found with
  | none =>
      refine halike.during_bind fun counters => ?_
      exact .answers ⟨_, _, .same _, ⟨store, hstore, rfl⟩, rfl⟩
  | some place =>
      refine htick.bind ?_
      rintro ⟨now, c₁⟩ _ ⟨c₁', hc₁, rfl⟩
      have halike := hc₁
      obtain ⟨store, hstore, rfl⟩ := hc₁
      refine halike.during_bind fun directory => ?_
      refine halike.during_bind fun e => ?_
      refine halike.during_bind fun counters => ?_
      have hhit : Alike { c₁.withDirectory directory with counters := counters }
          { c₁.withDirectory directory with counters := counters, store := store } :=
        ⟨store, hstore, rfl⟩
      refine (hhit.read e.offset e.dataLength).bind fun bytes bytes' _ => ?_
      exact .answers ⟨_, _, .found _ _, hhit, rfl⟩

theorem stats (h : c.Alike c') (reset : Bool) :
    Lockstep (Match Alike Eq) (c.stats reset) (c'.stats reset) := by
  have halike := h
  obtain ⟨store, hstore, rfl⟩ := h
  unfold Cache.stats
  refine .ite (fun _ => ?_) fun _ => ?_
  · refine ((halike.during _).map some).bind ?_
    rintro occupancy _ rfl
    exact .answers ⟨_, _, rfl, ⟨store, hstore, rfl⟩, rfl⟩
  · exact .answers ⟨_, _, rfl, ⟨store, hstore, rfl⟩, rfl⟩

theorem perform (h : c.Alike c') (r : Request) :
    Lockstep (Match Alike Answer.Resembles) (c.perform r) (c'.perform r) := by
  cases r with
  | put key data =>
      refine (h.put key data).bind ?_
      rintro o _ ⟨_, c₁', hanswer, hc₁, rfl⟩
      exact .answers ⟨_, _, hanswer, hc₁, rfl⟩
  | get key =>
      refine (h.get key).bind ?_
      rintro o _ ⟨_, c₁', hanswer, hc₁, rfl⟩
      exact .answers ⟨_, _, hanswer, hc₁, rfl⟩
  | contains key =>
      have halike := h
      obtain ⟨store, hstore, rfl⟩ := h
      refine halike.during_bind fun present => ?_
      exact .answers ⟨_, _, .same _, halike, rfl⟩
  | empty =>
      obtain ⟨store, hstore, rfl⟩ := h
      exact .answers ⟨_, _, .same _, ⟨store, hstore, rfl⟩, rfl⟩
  | stats reset =>
      refine (h.stats reset).bind ?_
      rintro o _ ⟨_, c₁', rfl, hc₁, rfl⟩
      exact .answers ⟨_, _, .same _, hc₁, rfl⟩
  | occupancy =>
      have halike := h
      obtain ⟨store, hstore, rfl⟩ := h
      refine halike.during_bind fun report => ?_
      exact .answers ⟨_, _, .same _, halike, rfl⟩

end Alike

/-! ## Twins -/

/-- Caches that are alike, both sound, with the same bytes for the same keys. -/
def Twins (c c' : Cache) : Prop :=
  c.Alike c' ∧ ∃ lists lists', c.Sound lists [] [] ∧ c'.Sound lists' [] [] ∧
    ∀ k d, c.Holds lists k d ↔ c'.Holds lists' k d

/-- Caches without items are twins if they are alike. -/
theorem Alike.twins (h : c.Alike c') (hc : c.Sound (blankLists c.layout) [] [])
    (hc' : c'.Sound (blankLists c'.layout) [] []) : c.Twins c' := by
  refine ⟨h, _, _, hc, hc', fun k d => ?_⟩
  exact iff_of_false (not_holds_blank hc.bins_eq) (not_holds_blank hc'.bins_eq)

/-- The bytes that are answered are those that both hold. -/
theorem Step.answer_eq {r : Request} {a a' : Answer} {events events' : List Event} {c₁ c₁' : Cache}
    {lists₁ lists₁' : Nat → List Nat} (h : Step c lists ⟨r, a, events⟩ c₁ lists₁)
    (h' : Step c' lists' ⟨r, a', events'⟩ c₁' lists₁') (hc' : c'.Sound lists' [] [])
    (hholds : ∀ k d, c.Holds lists k d ↔ c'.Holds lists' k d) (hanswer : a.Resembles a') :
    a = a' := by
  cases hanswer with
  | same _ => rfl
  -- A put answers what it was given; a lookup finds what is held, and that is unique.
  | stored _ _ =>
      cases h with
      | stored _ =>
          cases h' with
          | stored _ => rfl
  | found _ _ =>
      cases h with
      | hit hd =>
          cases h' with
          | hit hd' => rw [hc'.holds_unique ((hholds _ _).1 hd) hd']

theorem Twins.perform (h : c.Twins c') (r : Request) :
    Lockstep (Match Twins Eq) (c.perform r) (c'.perform r) := by
  obtain ⟨halike, lists, lists', hc, hc', hholds⟩ := h
  refine (halike.perform r).mono ?_
  rintro ⟨answer, c₁, events⟩ _ hperform hperform' ⟨answer', c₁', hanswer, halike₁, rfl⟩
  obtain ⟨lists₁, hstep⟩ := hc.perform_step hperform
  obtain ⟨lists₁', hstep'⟩ := hc'.perform_step hperform'
  obtain rfl := hstep.answer_eq hstep' hc' hholds hanswer
  refine ⟨answer, c₁', rfl, ⟨halike₁, lists₁, lists₁', hstep.sound hc, hstep'.sound hc', ?_⟩, rfl⟩
  -- The same turn changes in the same way what both hold.
  intro k d
  rw [hstep.holds_iff hc, hstep'.holds_iff hc', hholds]

/-- A run of twins gives the same turns and leaves twins. -/
theorem Twins.run (h : c.Twins c') (requests : List Request) :
    Lockstep (Beside Twins) (c.run requests) (c'.run requests) := by
  induction requests generalizing c c' with
  | nil => exact .answers ⟨c', h, rfl⟩
  | cons r rest ih =>
      refine (h.perform r).bind ?_
      rintro o _ ⟨_, c₁', rfl, hc₁, rfl⟩
      refine (ih hc₁).bind ?_
      rintro ⟨turns, c₂⟩ _ ⟨c₂', hc₂, rfl⟩
      exact .answers ⟨c₂', hc₂, rfl⟩

/-- No requests tell the two apart, neither by their answers nor by their events nor by the number
of items that there are in the end. -/
def Indistinguishable (c c' : Cache) : Prop :=
  ∀ requests, Lockstep (fun p p' => p'.1 = p.1 ∧ p'.2.len = p.2.len) (c.run requests)
    (c'.run requests)

theorem Twins.indistinguishable (h : c.Twins c') : c.Indistinguishable c' := by
  intro requests
  refine (h.run requests).mono ?_
  rintro ⟨turns, c₁⟩ _ _ _ ⟨c₁', ⟨⟨store, _, rfl⟩, _⟩, rfl⟩
  exact ⟨rfl, rfl⟩

end Cache
end BlockCache

import EntryCache.Proofs.Staging.Consistency

/-! One key of a cache over a store: what the cache has for it and what the store has. Calls that
are made on both at once are compared with a staged entry that is committed at the end. They come
apart where the last change is the removal of a value that only the store has, and where it is a
value that cannot be copied. -/

namespace EntryCache

variable {ω α : Type}

structure Sides (α : Type) : Type where
  entry : Option α
  store : Option α
  deriving DecidableEq

namespace Sides

variable {copy : α → Except Error α} {through : Bool} {m : Sides α}

def put (copy : α → Except Error α) (v : α) (m : Sides α) :
    Sides α := ⟨(copy v).toOption.or m.entry, some v⟩

def empty : Sides α := ⟨none, none⟩

def readThrough (copy : α → Except Error α) (m : Sides α) : Sides α :=
  match m.entry, m.store with
  | none, some v => m.put copy v
  | _, _ => m

def move (copy : α → Except Error α) (through : Bool) (m : Sides α) : Call α → Sides α
  | .value => if through then m.readThrough copy else m
  | .present => m
  | .set v => m.put copy v
  | .remove => empty

def commit (copy : α → Except Error α) (m : Sides α) : Outcome α → Sides α
  | .nothing => m
  | .accessed => m
  | .loaded v => m.put copy v
  | .created v => m.put copy v
  | .updated v => m.put copy v
  | .removed => empty

@[simp] theorem put_put (v : α) (m : Sides α) : (m.put copy v).put copy v = m.put copy v := by
  simp only [put, ← Option.or_assoc, Option.or_self]

theorem readThrough_of_some {v : α} (h : m.entry = some v) : m.readThrough copy = m := by
  simp [readThrough, h]

theorem readThrough_of_none (h : m.store = none) : m.readThrough copy = m := by
  unfold readThrough
  split
  · simp_all
  · rfl

theorem readThrough_of_stored {v : α} (he : m.entry = none) (hs : m.store = some v) :
    m.readThrough copy = m.put copy v := by
  simp [readThrough, he, hs]

theorem readThrough_of_put {v : α} (hm : m.put copy v = m) : m.readThrough copy = m := by
  cases he : m.entry with
  | some u => exact readThrough_of_some he
  | none => rw [readThrough_of_stored he (congrArg store hm).symm, hm]

theorem put_eq_iff {v : α} {m₀ : Sides α} (hm : m.put copy v = m) :
    m₀.put copy v = m ↔ ∀ e, copy v = .error e → m.entry = m₀.entry := by
  rw [← hm]
  cases hv : copy v with
  | ok u => simp [put, hv, Except.toOption]
  | error e => simp [put, hv, Except.toOption, eq_comm]

theorem move_value_of_fixed (h : m.readThrough copy = m) : m.move copy through .value = m := by
  simp [move, h]

end Sides

/-- The last change among calls, after an earlier one: a value, or the removal of it. -/
def Call.change (last : Option (Option α)) : Call α → Option (Option α)
  | .value => last
  | .present => last
  | .set v => some (some v)
  | .remove => some none

def Call.lastChange (cs : List (Call α)) : Option (Option α) := cs.foldl change none

namespace StagedEntry

def LoadsFrom (load : Option (Action ω (Option α))) (I : ω → Prop) (x : Option α) : Prop :=
  ∀ l ∈ load, ∀ w, I w → (l w).1 = .ok x ∧ I (l w).2

def Abreast (copy : α → Except Error α) (m₀ : Sides α) :
    Option (Option α) → StagedEntry α → Sides α → Prop
  | none, s, m => (s.stage = .untouched ∨ s.stage = .accessed) ∧ m = m₀ ∨
      s.stage = .loaded ∧ s.value = m₀.store ∧ ∃ v, m₀.store = some v ∧ m = m₀.put copy v
  | some (some v), s, m => (s.stage = .created ∨ s.stage = .updated) ∧ s.value = some v ∧
      m.put copy v = m
  | some none, s, m => m = .empty ∧ (s.stage = .removed ∨
      m₀.entry = none ∧ (s.stage = .untouched ∧ s.value = none ∨ s.stage = .loaded ∧
        s.value = m₀.store))

structure Tracks (copy : α → Except Error α) (m₀ : Sides α) (current : Option α)
    (last : Option (Option α))
    (s : StagedEntry α) (m : Sides α) : Prop extends Consistent current s where
  entry : m₀.entry.isSome = current.isSome
  noError : s.loadError = none
  abreast : Abreast copy m₀ last s m

variable {copy : α → Except Error α} {m₀ m : Sides α} {current : Option α}
  {last : Option (Option α)}
  {s : StagedEntry α}

namespace Tracks

theorem ofCurrent (h : m₀.entry.isSome = current.isSome) :
    Tracks copy m₀ current none (.ofCurrent current) m₀ where
  toConsistent := consistent_ofCurrent current
  entry := h
  noError := rfl
  abreast := .inl ⟨.inl rfl, rfl⟩

theorem set (h : Tracks copy m₀ current last s m) (v : α) :
    Tracks copy m₀ current (some (some v)) (s.set v) (m.put copy v) where
  toConsistent := h.toConsistent.set v
  entry := h.entry
  noError := h.noError
  abreast := by
    refine ⟨?_, rfl, Sides.put_put v m⟩
    cases hs : s.existed <;> simp [StagedEntry.set, hs]

theorem remove (h : Tracks copy m₀ current last s m) :
    Tracks copy m₀ current (some none) s.remove .empty where
  toConsistent := h.toConsistent.remove
  entry := h.entry
  noError := h.noError
  abreast := by
    have hs := h.toConsistent.remove.stage_of_absent rfl
    refine ⟨rfl, ?_⟩
    rw [← h.entry] at hs
    cases he : m₀.entry with
    | some v =>
      rw [he] at hs
      exact .inl hs
    | none =>
      rw [he] at hs
      exact .inr ⟨rfl, .inl ⟨hs, rfl⟩⟩

theorem readThrough_of_current (h : Tracks copy m₀ current last s m) (hcurrent : current.isSome) :
    m₀.readThrough copy = m₀ := by
  obtain ⟨v, hv⟩ := Option.isSome_iff_exists.1 (h.entry.trans hcurrent)
  exact Sides.readThrough_of_some hv

theorem of_untouched (h : Tracks copy m₀ current last s m) (hs : s.stage = .untouched) :
    last = none ∧ m = m₀ ∨ last = some none ∧ m = .empty ∧ m₀.entry = none ∧ s.value = none := by
  have ha := h.abreast
  rcases last with _ | _ | v
  · rcases ha with ⟨-, rfl⟩ | ⟨hl, -⟩
    · exact .inl ⟨rfl, rfl⟩
    · simp [hs] at hl
  · obtain ⟨rfl, hr | ⟨he, ⟨-, hv⟩ | ⟨hl, -⟩⟩⟩ := ha
    · simp [hs] at hr
    · exact .inr ⟨rfl, rfl, he, hv⟩
    · simp [hs] at hl
  · simp [Abreast, hs] at ha

theorem settled (h : Tracks copy m₀ current last s m) (hs : s.stage ≠ .untouched) :
    m.readThrough copy = m := by
  have ha := h.abreast
  rcases last with _ | _ | v
  · rcases ha with ⟨hu | hacc, rfl⟩ | ⟨-, -, v, hv, rfl⟩
    · exact absurd hu hs
    · have hf := h.fits
      rw [hacc] at hf
      exact h.readThrough_of_current hf.1
    · exact Sides.readThrough_of_put (Sides.put_put v m₀)
  · rw [ha.1]
    rfl
  · exact Sides.readThrough_of_put ha.2.2

theorem access (h : Tracks copy m₀ current last s m) (hs : s.stage = .untouched) {v : α}
    (hv : s.value = some v) :
    Tracks copy m₀ current last { s with stage := .accessed } m ∧ m.readThrough copy = m := by
  have hc : s.value = current := by simpa [hs, Stage.Fits] using h.fits
  have hcurrent : current.isSome := by rw [← hc, hv]; rfl
  rcases h.of_untouched hs with ⟨rfl, rfl⟩ | ⟨-, -, -, hnone⟩
  · exact ⟨⟨⟨h.existed, hcurrent, hc⟩, h.entry, h.noError, .inl ⟨.inr rfl, rfl⟩⟩,
      h.readThrough_of_current hcurrent⟩
  · simp [hv] at hnone

theorem load (h : Tracks copy m₀ current last s m) (hs : s.stage = .untouched)
    (hv : s.value = none) :
    Tracks copy m₀ current last (s.absorb (.ok m₀.store)) (m.readThrough copy) := by
  have hc := h.toConsistent.absorb hs hv (.ok m₀.store)
  have hcurrent : none = current := by simpa [hs, hv, Stage.Fits] using h.fits
  have he : m₀.entry = none := by simpa [← hcurrent] using h.entry
  cases hstore : m₀.store with
  | none =>
    suffices m.readThrough copy = m by rwa [this]
    rcases h.of_untouched hs with ⟨-, rfl⟩ | ⟨-, rfl, -, -⟩
    · exact Sides.readThrough_of_none hstore
    · rfl
  | some v =>
    rw [hstore] at hc
    rcases h.of_untouched hs with ⟨rfl, rfl⟩ | ⟨rfl, rfl, -, -⟩
    · refine ⟨hc, h.entry, h.noError, .inr ⟨rfl, hstore.symm, v, hstore, ?_⟩⟩
      exact Sides.readThrough_of_stored he hstore
    · exact ⟨hc, h.entry, h.noError, rfl, .inr ⟨he, .inr ⟨rfl, hstore.symm⟩⟩⟩

theorem read (h : Tracks copy m₀ current last s m)
    {load : Option (Action ω (Option α))} {I : ω → Prop} (hload : LoadsFrom load I m₀.store) {w : ω}
    (hw : I w) :
    Tracks copy m₀ current last (s.read load w).2.1 (m.move copy load.isSome .value) ∧
    I (s.read load w).2.2 := by
  -- Only the first read of an untouched entry changes it; all others find what is there.
  by_cases hs : s.stage = .untouched
  · cases hv : s.value with
    | some v =>
      obtain ⟨hacc, hm⟩ := h.access hs hv
      rw [read_of_some hs hv, Sides.move_value_of_fixed hm]
      exact ⟨hacc, hw⟩
    | none =>
      cases load with
      | none =>
        rw [read_without_load hv]
        exact ⟨h, hw⟩
      | some l =>
        obtain ⟨hl, hw'⟩ := hload l rfl w hw
        rw [read_of_load hs hv, hl]
        exact ⟨h.load hs hv, hw'⟩
  · rw [read_of_ne hs, Sides.move_value_of_fixed (h.settled hs)]
    exact ⟨h, hw⟩

theorem answer (h : Tracks copy m₀ current last s m)
    {load : Option (Action ω (Option α))} {I : ω → Prop} (hload : LoadsFrom load I m₀.store)
    (c : Call α) {w : ω} (hw : I w) :
    Tracks copy m₀ current (c.change last) (StagedEntry.answer load c (s, w)).2.1
      (m.move copy load.isSome c) ∧
      I (StagedEntry.answer load c (s, w)).2.2 := by
  cases c with
  | value => exact h.read hload hw
  | present => exact ⟨h, hw⟩
  | set v => exact ⟨h.set v, hw⟩
  | remove => exact ⟨h.remove, hw⟩

theorem answerAll (h : Tracks copy m₀ current last s m)
    {load : Option (Action ω (Option α))} {I : ω → Prop} (hload : LoadsFrom load I m₀.store)
    (cs : List (Call α)) {w : ω} (hw : I w) : Tracks copy m₀ current (cs.foldl Call.change last)
      (Call.answerAll (StagedEntry.answer load) cs (s, w)).2.1
        (cs.foldl (Sides.move copy load.isSome) m) ∧
      I (Call.answerAll (StagedEntry.answer load) cs (s, w)).2.2 := by
  induction cs generalizing last s m w with
  | nil => exact ⟨h, hw⟩
  | cons c cs ih =>
    obtain ⟨hc, hw'⟩ := h.answer hload c hw
    exact ih hc hw'

theorem commit_unchanged (h : Tracks copy m₀ current none s m) :
    ∃ o, s.outcome = .ok o ∧ m₀.commit copy o = m := by
  unfold outcome
  rw [h.noError]
  refine ⟨_, rfl, ?_⟩
  rcases h.abreast with ⟨hs | hs, rfl⟩ | ⟨hs, hv, v, hv₀, rfl⟩
  · rw [hs]
    rfl
  · rw [hs]
    rfl
  · rw [hs, hv, hv₀]
    rfl

theorem commit_set {v : α} (h : Tracks copy m₀ current (some (some v)) s m) :
    ∃ o, s.outcome = .ok o ∧ m₀.commit copy o = m₀.put copy v := by
  unfold outcome
  rw [h.noError, h.abreast.2.1]
  refine ⟨_, rfl, ?_⟩
  rcases h.abreast.1 with hs | hs
  · rw [hs]
    rfl
  · rw [hs]
    rfl

theorem commit_removed (h : Tracks copy m₀ current (some none) s m) :
    ∃ o, s.outcome = .ok o ∧ (m₀.commit copy o = m ↔ (m₀.entry = none → m₀.store = none)) := by
  unfold outcome
  rw [h.noError]
  refine ⟨_, rfl, ?_⟩
  have hf := h.fits
  obtain ⟨rfl, hs | ⟨he, ⟨hs, hv⟩ | ⟨hs, hv⟩⟩⟩ := h.abreast
  · rw [hs] at hf ⊢
    have he : m₀.entry ≠ none := Option.isSome_iff_ne_none.1 (h.entry.trans hf.1)
    exact iff_of_true rfl fun hnone => absurd hnone he
  · rw [hs]
    obtain ⟨entry, store⟩ := m₀
    obtain rfl : entry = none := he
    simp [Sides.commit, Sides.empty]
  · rw [hs, hv] at hf ⊢
    obtain ⟨v, hstore⟩ := Option.isSome_iff_exists.1 hf.2
    simp [hstore, he, Sides.commit, Sides.put, Sides.empty]

/-- Committing comes to the same as the calls, but for a removal of what only the store has and for
a value without a copy. -/
theorem commit_eq_iff (h : Tracks copy m₀ current last s m) :
    ∃ o, s.outcome = .ok o ∧ (m₀.commit copy o = m ↔
      (last = some none → m₀.entry = none → m₀.store = none) ∧
      ∀ v, last = some (some v) → ∀ e, copy v = .error e → m.entry = m₀.entry) := by
  rcases last with _ | _ | v
  · obtain ⟨o, ho, hm⟩ := h.commit_unchanged
    exact ⟨o, ho, by simp [hm]⟩
  · obtain ⟨o, ho, hm⟩ := h.commit_removed
    exact ⟨o, ho, by simp [hm]⟩
  · obtain ⟨o, ho, hm⟩ := h.commit_set
    exact ⟨o, ho, by simp [hm, Sides.put_eq_iff h.abreast.2.2]⟩

end Tracks

end StagedEntry

end EntryCache

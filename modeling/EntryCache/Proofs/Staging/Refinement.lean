import EntryCache.Proofs.Staging.Consistency

namespace EntryCache

variable {ω α : Type}

/-- An entry that is its content; `failure` is the last failure of a loader to fill it. -/
structure PlainEntry (α : Type) : Type where
  content : Option α
  failure : Option Error

namespace PlainEntry

def ofCurrent (current : Option α) : PlainEntry α := ⟨current, none⟩

def fill (p : PlainEntry α) : Except Error (Option α) → PlainEntry α
  | .ok v => { p with content := v }
  | .error e => { p with failure := some e }

def read (load : Option (Action ω (Option α))) (p : PlainEntry α) (w : ω) :
    Option α × PlainEntry α × ω :=
  match p.content, load with
  | none, some load =>
    let (r, w) := load w
    let p := p.fill r
    (p.content, p, w)
  | v, _ => (v, p, w)

def answer (load : Option (Action ω (Option α))) :
    Call α → PlainEntry α × ω → Answer α × PlainEntry α × ω
  | .value, (p, w) =>
    let (v, p, w) := p.read load w
    (.value v, p, w)
  | .present, (p, w) => (.truth p.content.isSome, p, w)
  | .set v, (p, w) => (.done, { p with content := some v }, w)
  | .remove, (p, w) => (.done, { p with content := none }, w)

theorem read_of_some {p : PlainEntry α} {load : Option (Action ω (Option α))} {v : α}
    (h : p.content = some v) (w : ω) : p.read load w = (some v, p, w) := by
  simp [read, h]

theorem read_of_load {p : PlainEntry α} {l : Action ω (Option α)} (h : p.content = none) (w : ω) :
    p.read (some l) w = ((p.fill (l w).1).content, p.fill (l w).1, (l w).2) := by
  simp [read, h]

theorem read_without_load {p : PlainEntry α} (h : p.content = none) (w : ω) :
    p.read none w = (none, p, w) := by
  simp [read, h]

end PlainEntry

/-- No value is read after a removal before one is set; `removed` says that a removal was the last
change so far. -/
def Call.liveReads : (removed : Bool) → List (Call α) → Bool
  | _, [] => true
  | removed, .value :: cs => !removed && liveReads removed cs
  | removed, .present :: cs => liveReads removed cs
  | _, .set _ :: cs => liveReads false cs
  | _, .remove :: cs => liveReads true cs

namespace StagedEntry

variable {current : Option α} {removed : Bool} {s : StagedEntry α} {p : PlainEntry α}

/-- The two entries have the same content and the same failure, and the staged one still loads what
it lacks unless a removal was the last change. -/
structure Mirrors (current : Option α) (removed : Bool) (s : StagedEntry α)
    (p : PlainEntry α) : Prop
    extends Consistent current s where
  value : s.value = p.content
  failure : s.loadError = p.failure.map (·.attributeTo .loader)
  loads : removed = false → s.stage ≠ .removed

namespace Mirrors

theorem ofCurrent (current : Option α) :
    Mirrors current false (.ofCurrent current) (.ofCurrent current) where
  toConsistent := consistent_ofCurrent current
  value := rfl
  failure := rfl
  loads _ := by simp [StagedEntry.ofCurrent]

theorem set (h : Mirrors current removed s p) (v : α) :
    Mirrors current false (s.set v) { p with content := some v } where
  toConsistent := h.toConsistent.set v
  value := rfl
  failure := h.failure
  loads _ := by simp only [StagedEntry.set]; split <;> simp

theorem remove (h : Mirrors current removed s p) :
    Mirrors current true s.remove { p with content := none } where
  toConsistent := h.toConsistent.remove
  value := rfl
  failure := h.failure
  loads := by simp

theorem untouched (h : Mirrors current false s p) (hv : s.value = none) : s.stage = .untouched := by
  have hs := h.stage_of_absent hv
  split at hs
  · exact absurd hs (h.loads rfl)
  · exact hs

theorem absorb (h : Mirrors current false s p) (hv : s.value = none) (r : Except Error (Option α)) :
    Mirrors current false (s.absorb r) (p.fill r) := by
  have hs := h.untouched hv
  refine ⟨h.toConsistent.absorb hs hv r, ?_, ?_, ?_⟩
  · rcases r with e | _ | v
    · exact h.value
    · exact hv
    · rfl
  · rcases r with e | _ | v
    · rfl
    · exact h.failure
    · exact h.failure
  · intro _
    rcases r with e | _ | v <;> simp [StagedEntry.absorb, hs]

theorem read (h : Mirrors current false s p) (load : Option (Action ω (Option α))) (w : ω) :
    (s.read load w).1 = (p.read load w).1 ∧ (s.read load w).2.2 = (p.read load w).2.2 ∧
      Mirrors current false (s.read load w).2.1 (p.read load w).2.1 := by
  cases hv : s.value with
  | some v =>
    rw [PlainEntry.read_of_some (h.value ▸ hv)]
    by_cases hs : s.stage = .untouched
    · rw [StagedEntry.read_of_some hs hv]
      refine ⟨rfl, rfl, ?_, h.value, h.failure, by simp⟩
      simpa [StagedEntry.read_of_some hs hv] using h.toConsistent.read load w
    · rw [read_of_ne hs]
      exact ⟨hv, rfl, h⟩
  | none =>
    cases load with
    | none =>
      rw [StagedEntry.read_without_load hv, PlainEntry.read_without_load (h.value ▸ hv)]
      exact ⟨rfl, rfl, h⟩
    | some l =>
      rw [StagedEntry.read_of_load (h.untouched hv) hv, PlainEntry.read_of_load (h.value ▸ hv)]
      have hr := h.absorb hv (l w).1
      exact ⟨hr.value, rfl, hr⟩

/-- The simulation: what mirrors each other gives the same answers and goes on mirroring. -/
theorem answerAll (h : Mirrors current removed s p) (load : Option (Action ω (Option α)))
    (cs : List (Call α)) (hcs : Call.liveReads removed cs) (w : ω) :
    ∃ s' p' w' as removed',
      Call.answerAll (StagedEntry.answer load) cs (s, w) = (as, s', w') ∧
      Call.answerAll (PlainEntry.answer load) cs (p, w) = (as, p', w') ∧
      Mirrors current removed' s' p' := by
  -- Whether a removal was the last change so far is carried along, for it decides which reads are
  -- allowed.
  induction cs generalizing removed s p w with
  | nil => exact ⟨s, p, w, [], removed, rfl, rfl, h⟩
  | cons c cs ih =>
    cases c with
    | value =>
      simp only [Call.liveReads, Bool.and_eq_true, Bool.not_eq_true'] at hcs
      obtain ⟨rfl, hcs⟩ := hcs
      obtain ⟨hv, hw, hm⟩ := h.read load w
      obtain ⟨s', p', w', as, removed', hs, hp, hm⟩ := ih hm hcs (s.read load w).2.2
      refine ⟨s', p', w', .value (s.read load w).1 :: as, removed', ?_, ?_, hm⟩
      · simp only [Call.answerAll, StagedEntry.answer, hs]
      · simp only [Call.answerAll, PlainEntry.answer, ← hv, ← hw, hp]
    | present =>
      obtain ⟨s', p', w', as, removed', hs, hp, hm⟩ := ih h hcs w
      refine ⟨s', p', w', .truth s.present :: as, removed', ?_, ?_, hm⟩
      · simp only [Call.answerAll, StagedEntry.answer, hs]
      · simp only [Call.answerAll, PlainEntry.answer, hp, StagedEntry.present, h.value]
    | set v =>
      obtain ⟨s', p', w', as, removed', hs, hp, hm⟩ := ih (h.set v) hcs w
      refine ⟨s', p', w', .done :: as, removed', ?_, ?_, hm⟩
      · simp only [Call.answerAll, StagedEntry.answer, hs]
      · simp only [Call.answerAll, PlainEntry.answer, hp]
    | remove =>
      obtain ⟨s', p', w', as, removed', hs, hp, hm⟩ := ih h.remove hcs w
      refine ⟨s', p', w', .done :: as, removed', ?_, ?_, hm⟩
      · simp only [Call.answerAll, StagedEntry.answer, hs]
      · simp only [Call.answerAll, PlainEntry.answer, hp]

end Mirrors

/-- A staged entry answers calls as the plain entry does, and its net effect makes the same of what
was mapped. -/
theorem run_refines_plainEntry (load : Option (Action ω (Option α))) (current : Option α)
    {cs : List (Call α)} (hcs : Call.liveReads false cs) (w : ω) :
    ∃ s,
      let plain := Call.answerAll (PlainEntry.answer load) cs (.ofCurrent current, w)
      run load (.ofCalls cs) (.ofCurrent current) w = (.ok plain.1, s, plain.2.2) ∧
      match plain.2.1.failure with
      | none => ∃ o, s.outcome = .ok o ∧ o.commit current = plain.2.1.content ∧ o.Fits current
      | some e => ∃ e', s.outcome = .error e' ∧ e'.kind = .component .loader ∧
          e'.rootCause = e.rootCause := by
  obtain ⟨s, p, w', as, removed, hs, hp, hm⟩ := (Mirrors.ofCurrent current).answerAll load cs hcs w
  refine ⟨s, ?_, ?_⟩
  · rw [run_ofCalls, hs, hp]
  · rw [hp]
    cases hf : p.failure with
    | none =>
      have he : s.loadError = none := by rw [hm.failure, hf]; rfl
      obtain ⟨o, ho, hc, hfit⟩ := hm.outcome he
      exact ⟨o, ho, hc.trans hm.value, hfit⟩
    | some e =>
      have he : s.loadError = some (e.attributeTo .loader) := by rw [hm.failure, hf]; rfl
      exact ⟨_, outcome_of_loadError he, e.kind_attributeTo .loader,
        e.rootCause_attributeTo .loader⟩

theorem run_refines_plainEntry_reload :
    let load : Action Nat (Option String) := fun n => (.ok (some "loaded"), n + 1)
    let cs := [.value, .set "a", .remove, .present, .set "b", .value]
    Call.liveReads false cs = true ∧
    ∃ s, run (some load) (.ofCalls cs) (.ofCurrent none) 0 =
        (.ok [.value (some "loaded"), .done, .done, .truth false, .done, .value (some "b")], s, 1) ∧
      ∃ o, s.outcome = .ok o ∧ o.commit none = some "b" ∧ o.Fits none :=
  ⟨rfl, run_refines_plainEntry _ none rfl 0⟩

end StagedEntry

end EntryCache

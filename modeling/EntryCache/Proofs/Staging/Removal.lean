import EntryCache.Proofs.Staging.Consistency

namespace EntryCache

variable {ω α : Type}

def Answer.Absent : Answer α → Prop
  | .value v => v = none
  | .truth b => b = false
  | .done => True

/-- Whether a loader that is asked at every read of the value has one for any of them. -/
def Call.anyLoaded (l : Action ω (Option α)) : List (Call α) → ω → Bool
  | [], _ => false
  | .value :: cs, w =>
    match l w with
    | (.ok (some _), _) => true
    | (_, w) => anyLoaded l cs w
  | _ :: cs, w => anyLoaded l cs w

theorem Call.anyLoaded_of_some {l : Action ω (Option α)} {v : α} {w w₁ : ω}
    (h : l w = (.ok (some v), w₁))
    (cs : List (Call α)) : anyLoaded l (.value :: cs) w = true := by
  rw [anyLoaded, h]

theorem Call.anyLoaded_of_none {l : Action ω (Option α)} {w w₁ : ω} (h : l w = (.ok none, w₁))
    (cs : List (Call α)) : anyLoaded l (.value :: cs) w = anyLoaded l cs w₁ := by
  rw [anyLoaded, h]

namespace StagedEntry

variable {s : StagedEntry α} {load : Option (Action ω (Option α))} {current : Option α}

theorem loadError_absorb_ok (s : StagedEntry α) (v : Option α) :
    (s.absorb (.ok v)).loadError = s.loadError := by
  cases v <;> rfl

theorem loadError_read (hload : ∀ l ∈ load, ∀ w, ∃ v, (l w).1 = .ok v) (w : ω) :
    (s.read load w).2.1.loadError = s.loadError := by
  by_cases hs : s.stage = .untouched
  · cases hv : s.value with
    | some v => rw [read_of_some hs hv]
    | none =>
      cases load with
      | none => rw [read_without_load hv]
      | some l =>
        obtain ⟨v, hl⟩ := hload l rfl w
        rw [read_of_load hs hv, hl]
        exact loadError_absorb_ok s v
  · rw [read_of_ne hs]

theorem loadError_answerAll (hload : ∀ l ∈ load, ∀ w, ∃ v, (l w).1 = .ok v)
    (cs : List (Call α)) (w : ω) :
    (Call.answerAll (answer load) cs (s, w)).2.1.loadError = s.loadError := by
  induction cs generalizing s w with
  | nil => rfl
  | cons c cs ih =>
    simp only [Call.answerAll]
    rw [ih]
    cases c with
    | value => exact loadError_read hload w
    | present => rfl
    | set v => rfl
    | remove => rfl

theorem read_of_load_some {l : Action ω (Option α)} (hs : s.stage = .untouched)
    (hv : s.value = none) {v : α} {w w₁ : ω} (h : l w = (.ok (some v), w₁)) :
    s.read (some l) w = (some v, s.absorb (.ok (some v)), w₁) := by
  rw [read_of_load hs hv, h]
  rfl

theorem read_of_load_none {l : Action ω (Option α)} (hs : s.stage = .untouched)
    (hv : s.value = none)
    {w w₁ : ω} (h : l w = (.ok none, w₁)) : s.read (some l) w = (none, s, w₁) := by
  rw [read_of_load hs hv, h]
  exact congrArg (·, s, w₁) hv

theorem read_absent (hload : ∀ l ∈ load, ∀ w, ∃ v, (l w).1 = .ok v) (hv : s.value = none)
    {cs : List (Call α)}
    {w : ω} (hl : s.stage = .untouched → ∀ l ∈ load, Call.anyLoaded l (.value :: cs) w = false) :
    ∃ w₁, s.read load w = (none, s, w₁) ∧
      (s.stage = .untouched → ∀ l ∈ load, Call.anyLoaded l cs w₁ = false) := by
  by_cases hs : s.stage = .untouched
  · cases load with
    | none => exact ⟨w, read_without_load hv w, fun _ _ h => nomatch h⟩
    | some l =>
      have hany := hl hs l rfl
      obtain ⟨v, hr⟩ := hload l rfl w
      rcases hrun : l w with ⟨r, w₁⟩
      obtain rfl : r = .ok v := by rwa [hrun] at hr
      cases v with
      | some v => cases (Call.anyLoaded_of_some hrun cs).symm.trans hany
      | none =>
        refine ⟨w₁, read_of_load_none hs hv hrun, fun _ => ?_⟩
        rintro l ⟨⟩
        exact (Call.anyLoaded_of_none hrun cs).symm.trans hany
  · exact ⟨w, by rw [read_of_ne hs, hv], fun h => absurd h hs⟩

theorem answerAll_reads_absent (hload : ∀ l ∈ load, ∀ w, ∃ v, (l w).1 = .ok v) (hv : s.value = none)
    {cs : List (Call α)} (hcs : ∀ c ∈ cs, c.isRead) {w : ω}
    (hl : s.stage = .untouched → ∀ l ∈ load, Call.anyLoaded l cs w = false) :
    (∀ a ∈ (Call.answerAll (answer load) cs (s, w)).1, a.Absent) ∧
      (Call.answerAll (answer load) cs (s, w)).2.1 = s := by
  induction cs generalizing w with
  | nil => simp [Call.answerAll]
  | cons c cs ih =>
    have hcs' : ∀ c ∈ cs, c.isRead := fun c hc => hcs c (List.mem_cons_of_mem _ hc)
    cases c with
    | value =>
      obtain ⟨w₁, hr, hl'⟩ := read_absent hload hv hl
      simp only [Call.answerAll, answer, hr]
      exact ⟨List.forall_mem_cons.2 ⟨rfl, (ih hcs' hl').1⟩, (ih hcs' hl').2⟩
    | present =>
      have hp : s.present = false := by rw [StagedEntry.present, hv]; rfl
      simp only [Call.answerAll, answer, hp]
      exact ⟨List.forall_mem_cons.2 ⟨rfl, (ih hcs' hl).1⟩, (ih hcs' hl).2⟩
    | set v => cases hcs (.set v) List.mem_cons_self
    | remove => cases hcs .remove List.mem_cons_self

theorem mem_answerAll_loaded {l : Action ω (Option α)} (hload : ∀ w, ∃ v, (l w).1 = .ok v)
    (hs : s.stage = .untouched) (hv : s.value = none) {cs : List (Call α)}
    (hcs : ∀ c ∈ cs, c.isRead) {w : ω} (hl : Call.anyLoaded l cs w) :
    ∃ v, .value (some v) ∈ (Call.answerAll (answer (some l)) cs (s, w)).1 := by
  induction cs generalizing w with
  | nil => cases hl
  | cons c cs ih =>
    have hcs' : ∀ c ∈ cs, c.isRead := fun c hc => hcs c (List.mem_cons_of_mem _ hc)
    cases c with
    | value =>
      obtain ⟨v, hr⟩ := hload w
      rcases hrun : l w with ⟨r, w₁⟩
      obtain rfl : r = .ok v := by rwa [hrun] at hr
      cases v with
      | some v =>
        refine ⟨v, ?_⟩
        rw [Call.answerAll, answer, read_of_load_some hs hv hrun]
        exact List.mem_cons_self
      | none =>
        rw [Call.anyLoaded_of_none hrun] at hl
        obtain ⟨v, hm⟩ := ih hcs' hl
        refine ⟨v, ?_⟩
        rw [Call.answerAll, answer, read_of_load_none hs hv hrun]
        exact List.mem_cons_of_mem _ hm
    | present =>
      obtain ⟨v, hm⟩ := ih hcs' hl
      exact ⟨v, List.mem_cons_of_mem _ hm⟩
    | set v => cases hcs (.set v) List.mem_cons_self
    | remove => cases hcs .remove List.mem_cons_self

theorem run_up_to_remove (hload : ∀ l ∈ load, ∀ w, ∃ v, (l w).1 = .ok v) (current : Option α)
    (before : List (Call α)) (w : ω) :
    ∃ as s w', (run load (.ofCalls before) (.ofCurrent current) w).2.2 = w' ∧
      as.length = before.length + 1 ∧ Consistent current s ∧ s.value = none ∧ s.loadError = none ∧
      ∀ after, run load (.ofCalls (before ++ .remove :: after)) (.ofCurrent current) w =
        (.ok (as ++ (Call.answerAll (answer load) after (s, w')).1),
          (Call.answerAll (answer load) after (s, w')).2) := by
  obtain ⟨as, s, w', hb⟩ : ∃ as s w',
      Call.answerAll (answer load) before (.ofCurrent current, w) = (as, s, w') := ⟨_, _, _, rfl⟩
  have hc : Consistent current s := by
    simpa [hb] using (consistent_ofCurrent current).answerAll load before w
  have he : s.loadError = none := by
    have h := loadError_answerAll (s := ofCurrent current) hload before w
    rwa [hb] at h
  have hl : as.length = before.length := by
    have h := Call.length_answerAll (answer load) before (.ofCurrent current, w)
    rwa [hb] at h
  refine ⟨as ++ [.done], s.remove,
    w', by rw [run_ofCalls, hb], by simp [hl], hc.remove, rfl, he, ?_⟩
  intro after
  rw [run_ofCalls, Call.answerAll_append, hb]
  simp [Call.answerAll, answer]

/-- A removal is final, for the reads that follow it and for what is committed, unless the key was
not mapped and the loader has a value for one of the reads. -/
theorem remove_final_iff (hload : ∀ l ∈ load, ∀ w, ∃ v, (l w).1 = .ok v)
    (current : Option α) (before : List (Call α)) {after : List (Call α)}
    (hafter : ∀ c ∈ after, c.isRead) (w : ω) :
    (∃ as s w', run load (.ofCalls (before ++ .remove :: after)) (.ofCurrent current) w =
      (.ok as, s, w') ∧
      (∀ a ∈ as.drop (before.length + 1), a.Absent) ∧
      ∃ o, s.outcome = .ok o ∧ o.commit current = none) ↔
    ¬(current = none ∧
      ∃ l ∈ load, Call.anyLoaded l after
        (run load (.ofCalls before) (.ofCurrent current) w).2.2) := by
  obtain ⟨as, s, w', hw, hlen, hc, hv, he, hrun⟩ := run_up_to_remove hload current before w
  rw [hrun, hw]
  have hs := hc.stage_of_absent hv
  constructor
  · rintro ⟨as', _, _, hr, habsent, -⟩ ⟨rfl, l, rfl, hl⟩
    obtain rfl := Except.ok.inj (congrArg Prod.fst hr)
    obtain ⟨v, ha⟩ := mem_answerAll_loaded (hload l rfl) hs hv hafter hl
    rw [List.drop_left' hlen] at habsent
    cases habsent _ ha
  · intro hnot
    have hl : s.stage = .untouched → ∀ l ∈ load, Call.anyLoaded l after w' = false := by
      intro hu l hl
      cases current with
      | some v => simp [hu] at hs
      | none => exact Bool.eq_false_iff.2 fun hany => hnot ⟨rfl, l, hl, hany⟩
    obtain ⟨habsent, hsame⟩ := answerAll_reads_absent hload hv hafter hl
    obtain ⟨o, ho, hcommit, -⟩ := hc.outcome he
    refine ⟨_, _, _, rfl, ?_, o, ?_, hcommit.trans hv⟩
    · rwa [List.drop_left' hlen]
    · rwa [hsame]

theorem remove_final_iff_mapped :
    let load : Action Nat (Option String) := fun n => (.ok (some "loaded"), n + 1)
    (∀ l ∈ some load, ∀ w, ∃ v, (l w).1 = .ok v) ∧
    (∀ c ∈ [Call.value, .present], (c : Call String).isRead) ∧
    ∃ as s w', run (some load) (.ofCalls ([.value, .set "b"] ++ .remove :: [.value, .present]))
        (.ofCurrent (some "a")) 0 = (.ok as, s, w') ∧
      (∀ a ∈ as.drop 3, a.Absent) ∧ ∃ o, s.outcome = .ok o ∧ o.commit (some "a") = none :=
  have hload : ∀ l ∈ some fun n : Nat =>
    ((.ok (some "loaded"), n + 1) : Except Error (Option String) × Nat),
      ∀ w, ∃ v, (l w).1 = .ok v := by
    rintro l ⟨⟩ w
    exact ⟨_, rfl⟩
  have hreads : ∀ c ∈ [Call.value, .present], (c : Call String).isRead := by decide
  ⟨hload, hreads, (remove_final_iff hload (some "a") [.value, .set "b"] hreads 0).2 (by simp)⟩

/-- A value that is read after a removal brings back what the loader has. -/
theorem remove_then_value_loads :
    let load : Action Nat (Option String) := fun n => (.ok (some "loaded"), n + 1)
    ∃ s, run (some load) (.ofCalls [.remove, .value]) (.ofCurrent none) 0 =
        (.ok [.done, .value (some "loaded")], s, 1) ∧
      s.outcome = .ok (.loaded "loaded") ∧ (Outcome.loaded "loaded").commit none = some "loaded" :=
  ⟨_, rfl, rfl, rfl⟩

end StagedEntry

end EntryCache

import EntryCache.Proofs.Cache.Additions
import EntryCache.Proofs.Cache.Reading
import EntryCache.Proofs.Failures.Operations
import Mathlib.Logic.Relation

namespace EntryCache

variable {σ ω κ α β γ ρ : Type}

def Action.noted (a : Action σ γ) : Action (σ × List (Except Error γ)) γ := fun (s, rs) =>
  let (r, s) := a s
  (r, (s, rs ++ [r]))

@[simp] theorem Action.run_noted (a : Action σ γ) (s : σ) (rs : List (Except Error γ)) :
    a.noted.run (s, rs) = ((a.run s).1, ((a.run s).2, rs ++ [(a.run s).1])) := rfl

def failures (rs : List (Except Error γ)) : List Error :=
  rs.filterMap fun
    | .error e => some e
    | .ok _ => none

theorem failures_append (rs : List (Except Error γ)) (r : Except Error γ) :
    failures (rs ++ [r]) = failures rs ++ match r with
      | .error e => [e]
      | .ok _ => [] := by
  cases r <;> simp [failures]

namespace StagedEntry

variable (load : Option (Action ω (Option α)))

theorem read_noted (s : StagedEntry α) (w : ω) (rs : List (Except Error (Option α))) :
    ∃ rs', s.read (load.map .noted) (w, rs) =
      ((s.read load w).1, (s.read load w).2.1, ((s.read load w).2.2, rs')) := by
  by_cases hs : s.stage = .untouched
  · cases hv : s.value with
    | some v => exact ⟨rs, by rw [read_of_some hs hv, read_of_some hs hv]⟩
    | none =>
      cases load with
      | none => exact ⟨rs, by rw [Option.map_none, read_without_load hv, read_without_load hv]⟩
      | some l => exact ⟨rs ++ [(l w).1], by
          rw [Option.map_some, read_of_load hs hv, read_of_load hs hv]; rfl⟩
  · exact ⟨rs, by rw [read_of_ne hs, read_of_ne hs]⟩

theorem run_noted (p : Processor α β) (s : StagedEntry α) (w : ω)
    (rs : List (Except Error (Option α))) : ∃ rs', run (load.map .noted) p s (w, rs) =
      ((run load p s w).1, (run load p s w).2.1, ((run load p s w).2.2, rs')) := by
  induction p generalizing s w rs with
  | done r => exact ⟨rs, rfl⟩
  | value next ih =>
    obtain ⟨rs', hread⟩ := read_noted load s w rs
    obtain ⟨rs'', hrun⟩ := ih (s.read load w).1 (s.read load w).2.1 (s.read load w).2.2 rs'
    refine ⟨rs'', ?_⟩
    rw [run, hread]
    exact hrun
  | present next ih => exact ih ..
  | set v next ih => exact ih ..
  | remove next ih => exact ih ..

theorem outcome_of_failed_load {p : Processor α β} {v : Option α} {w : ω} {e : Error}
    (h : (failures (run (load.map .noted) p (.ofCurrent v) (w, [])).2.2.2).getLast? = some e) :
    ∃ err, (run load p (.ofCurrent v) w).2.1.outcome = .error err ∧
      Error.Attributed .loader e err := by
  let raised : ω × List (Except Error (Option α)) → List Failure :=
    fun s => (failures s.2).map (.loader, ·)
  have hreports : ∀ l ∈ load.map Action.noted, l.Reports raised .loader := by
    rintro l hl ⟨w, rs⟩
    obtain ⟨a, -, rfl⟩ := Option.map_eq_some_iff.1 hl
    simp only [raised, Action.run_noted, failures_append, List.map_append]
    rcases (a.run w).1 with e | v <;> rfl
  have hstart : HoldsBack raised [] (.ofCurrent v : StagedEntry α) (w, []) := ⟨[], rfl, .nil _⟩
  obtain ⟨fs, hfs, hsurfaces⟩ := hstart.run hreports p
  have hlast : fs.getLast? = some (.loader, e) := by
    rw [List.nil_append] at hfs
    rw [← hfs, List.getLast?_map, h]
    rfl
  obtain ⟨rs, hrun⟩ := run_noted load p (.ofCurrent v) w []
  rw [hrun] at hsurfaces
  exact surfaces_outcome hsurfaces .loader e hlast

end StagedEntry

namespace Cache

variable [DecidableEq κ]

def processorResult (k : κ) (p : Processor α β) (s : Cache ω κ α × ω) : Option (Except Error β) :=
  (current k s.1).toOption.map fun v => (StagedEntry.run (loading k s.1) p (.ofCurrent v) s.2).1

def loadAnswers (k : κ) (p : Processor α β) (s : Cache ω κ α × ω) :
    List (Except Error (Option α)) :=
  match current k s.1 with
  | .error _ => []
  | .ok v => (StagedEntry.run ((loading k s.1).map .noted) p (.ofCurrent v) (s.2, [])).2.2.2

structure Untouched (k : κ) (s t : Cache ω κ α × ω) : Prop where
  cache : t.1 = s.1
  world : Relation.ReflTransGen (fun w w' => ∃ l ∈ s.1.loader?, w' = ((l.load k).run w).2) s.2 t.2

/-- The writer was called once at the most and every listener was told of one event at the most, for
one key only. -/
structure AtMostOnce (k : κ) (s t : Cache ω κ α × ω) : Prop where
  writer : ∀ calls, s.1.Writes calls →
    ∃ xs : List (WriterCall κ α), calls t.2 = calls s.2 ++ xs ∧ xs.length ≤ 1 ∧ ∀ x ∈ xs, x.key = k
  listeners : ∀ events r, s.1.Tells events r →
    ∃ es : List (Event κ α), events t.2 = events s.2 ++ es ∧ es.length ≤ 1 ∧ ∀ e ∈ es, e.key = k

/-- What an invocation comes to, by how the processor and the loads for it ended. -/
structure Transaction (k : κ) (p : Processor α β) (s : Cache ω κ α × ω)
    (x : Except Error β × (Cache ω κ α × ω)) : Prop where
  failed : ∀ e, processorResult k p s = some (.error e) →
    (∃ err, x.1 = .error err ∧ Error.Attributed .processor e err) ∧ Untouched k s x.2
  unloaded : ∀ b e, processorResult k p s = some (.ok b) →
    (failures (loadAnswers k p s)).getLast? = some e →
    (∃ err, x.1 = .error err ∧ Error.Attributed .loader e err) ∧ Untouched k s x.2
  unstaged : ∀ e, current k s.1 = .error e → x.1 = .error e ∧ x.2 = s
  once : AtMostOnce k s x.2
  output : ∀ b, x.1 = .ok b → processorResult k p s = some (.ok b)

variable {c : Cache ω κ α} {s t : Cache ω κ α × ω} {k : κ} {w : ω}

theorem Untouched.leaves {f : ω → ρ} (h : Untouched k s t)
    (hf : ∀ l ∈ s.1.loader?, (l.load k).Leaves f) : f t.2 = f s.2 := by
  have hworld := h.world
  generalize t.2 = w at hworld
  induction hworld with
  | refl => rfl
  | tail _ hload ih =>
    obtain ⟨l, hl, rfl⟩ := hload
    exact (hf l hl _).trans ih

theorem untouched_run (c : Cache ω κ α) (k : κ) (p : Processor α β) (v : Option α) (w : ω) :
    Untouched k (c, w) (c, (StagedEntry.run (loading k c) p (.ofCurrent v) w).2.2) := by
  refine ⟨rfl, StagedEntry.keeps_run (fun load hload w' hw' => hw'.tail ?_) p _ .refl⟩
  obtain ⟨l, hl, rfl⟩ := Option.map_eq_some_iff.1 hload
  exact ⟨l, hl, rfl⟩

theorem invoke_atMostOnce (k : κ) (p : Processor α β) (s : Cache ω κ α × ω) :
    AtMostOnce k s ((invoke k p).run s).2 where
  writer _ h := (Op.Adds.invoke p s (h.charges k)).2
  listeners _ _ h := (Op.Adds.invoke p s (h.charges k)).2

theorem processorResult_eq_some {p : Processor α β} {r : Except Error β}
    (h : processorResult k p s = some r) :
    ∃ v, current k s.1 = .ok v ∧ (StagedEntry.run (loading k s.1) p (.ofCurrent v) s.2).1 = r := by
  rw [processorResult] at h
  cases hcurrent : current k s.1 with
  | error e =>
    rw [hcurrent] at h
    cases h
  | ok v =>
    rw [hcurrent] at h
    exact ⟨v, rfl, Option.some.inj h⟩

/-- An invocation that fails for its processor or for a load has touched nothing; any other
invocation calls the writer once at the most and tells every listener once at the most, and if it
succeeds it answers with the output of the processor. -/
theorem invoke_transaction (hopen : c.closed = false) (k : κ) (p : Processor α β) (w : ω) :
    Transaction k p (c, w) ((invoke k p).run (c, w)) := by
  refine ⟨fun e he => ?failed, fun b e hb he => ?unloaded, fun e he => ?unstaged,
    invoke_atMostOnce k p (c, w),
    fun b hb => ?output⟩
  case failed =>
    obtain ⟨v, hcurrent, hr⟩ := processorResult_eq_some he
    have huntouched := untouched_run c k p v w
    rcases hrun : StagedEntry.run (loading k c) p (.ofCurrent v) w with ⟨r, staged, w₁⟩
    rw [hrun] at hr huntouched
    cases hr
    rw [run_invoke_of_failed hopen hcurrent hrun]
    exact ⟨⟨_, rfl, e.attributed .processor⟩, huntouched⟩
  case unloaded =>
    obtain ⟨v, hcurrent, hr⟩ := processorResult_eq_some hb
    have huntouched := untouched_run c k p v w
    rw [loadAnswers, hcurrent] at he
    obtain ⟨err, houtcome, hattributed⟩ := StagedEntry.outcome_of_failed_load (loading k c) he
    rcases hrun : StagedEntry.run (loading k c) p (.ofCurrent v) w with ⟨r, staged, w₁⟩
    rw [hrun] at hr huntouched houtcome
    cases hr
    rw [run_invoke_of_ended hopen hcurrent hrun, run_commit_of_error houtcome]
    exact ⟨⟨err, rfl, hattributed⟩, huntouched⟩
  case unstaged =>
    rw [run_invoke hopen, he]
    exact ⟨rfl, rfl⟩
  case output =>
    obtain ⟨v, o, hcurrent, -⟩ := invoke_of_ok hopen hb
    rcases hrun : StagedEntry.run (loading k c) p (.ofCurrent v) w with ⟨e | b', staged, w₁⟩
    · rw [run_invoke_of_failed hopen hcurrent hrun] at hb
      cases hb
    · rw [run_invoke_of_ended hopen hcurrent hrun] at hb
      have hb' : b' = b := by
        rcases hcommit : ((commit k staged).run (c, w₁)).1 with e | x <;> rw [hcommit] at hb
        · cases hb
        · exact Except.ok.inj hb
      rw [processorResult, hcurrent, ← hb']
      exact congrArg (some ·.1) hrun

theorem invoke_transaction_set :
    let denied : Error := .cache "denied"
    let gone : Error := .cache "gone"
    let load (k : Nat) : Action (Notes Nat Nat) (Option Nat) := fun n =>
      (if k = 2 then .error gone else .ok none, { n with asked := n.asked + 1 })
    let c := {
      (create "c" (Notes.configuration (κ := Nat) (α := Nat) (fun _ => none) true []) .ok {}).1 with
      loader := some { load := load } }
    let p (k : Nat) : Processor Nat Nat := .value fun _ => .set 4 (.remove (.set 5 (
      .done (if k = 1 then .error denied else .ok 7))))
    let x (k : Nat) := (invoke k (p k)).run (c, {})
    ((x 1).1 = .error (.wrapped .processor denied.message denied) ∧ (x 1).2.1 = c ∧
      (x 1).2.2.calls = []) ∧
      ((x 2).1 = .error (.wrapped .loader gone.message gone) ∧ (x 2).2.1 = c ∧
        (x 2).2.2.calls = []) ∧
      ((x 3).1 = .ok 7 ∧ (x 3).2.2.calls = [.write 3 5] ∧ (x 3).2.2.events.length ≤ 1) := by
  intro denied gone load c p x
  have hx (k : Nat) : Transaction k (p k) (c, _) (x k) := invoke_transaction rfl k (p k) _
  have hload (k : Nat) : ∀ l ∈ c.loader?, (l.load k).Leaves Notes.calls := by
    rintro l ⟨⟩ n
    rfl
  have htells : ∃ r, c.Tells Notes.events r := by
    refine ⟨_, ⟨[], [], rfl, nofun⟩, ⟨fun t es w => ?_, nofun⟩, ?_, ?_⟩
    · cases t <;> rfl
    · rintro wr ⟨⟩
      exact Notes.writer_leaves_events
    · rintro l ⟨⟩ k n
      rfl
  refine ⟨?_, ?_, rfl, rfl, ?_⟩
  · obtain ⟨⟨err, herr, hattributed⟩, huntouched⟩ := (hx 1).failed denied rfl
    rw [hattributed.wrapped nofun] at herr
    exact ⟨herr, huntouched.cache, huntouched.leaves (hload 1)⟩
  · obtain ⟨⟨err, herr, hattributed⟩, huntouched⟩ := (hx 2).unloaded 7 gone rfl rfl
    rw [hattributed.wrapped nofun] at herr
    exact ⟨herr, huntouched.cache, huntouched.leaves (hload 2)⟩
  · obtain ⟨r, hr⟩ := htells
    obtain ⟨es, hes, hlength, -⟩ := (hx 3).once.listeners _ r hr
    rw [hes]
    exact hlength

end Cache

end EntryCache

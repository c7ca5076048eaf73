import EntryCache.Proofs.Cache.Listeners
import EntryCache.Proofs.Failures.Surfacing
import EntryCache.Proofs.Staging.Consistency

namespace EntryCache

variable {ω κ α β γ : Type} [DecidableEq κ] {raised : ω → List Failure}

namespace StagedEntry

variable {load : Option (Action ω (Option α))} {before : List Failure} {s : StagedEntry α} {w : ω}

def loads (s : StagedEntry α) : Except Error Unit :=
  match s.loadError with
  | some e => .error e
  | none => .ok ()

def HoldsBack (raised : ω → List Failure) (before : List Failure) (s : StagedEntry α)
    (w : ω) : Prop :=
  ∃ fs, raised w = before ++ fs ∧ Surfaces fs s.loads

omit [DecidableEq κ] in
theorem HoldsBack.read (h : HoldsBack raised before s w)
    (hload : ∀ l ∈ load, l.Reports raised .loader) :
    HoldsBack raised before (s.read load w).2.1 (s.read load w).2.2 := by
  unfold StagedEntry.read
  split
  · exact h
  · next l _ _ =>
    obtain ⟨fs, hraised, hsurfaces⟩ := h
    have hcall := hload l rfl w
    change HoldsBack raised before (s.absorb (l.run w).1) (l.run w).2
    rcases hrun : l.run w with ⟨e | v, w₁⟩ <;> rw [hrun, hraised, List.append_assoc] at hcall
    · exact ⟨_, hcall, (Surfaces.single .loader e).append nofun⟩
    · rw [List.append_nil] at hcall
      cases v <;> exact ⟨fs, hcall, hsurfaces⟩
  · exact h

omit [DecidableEq κ] in
theorem HoldsBack.run (h : HoldsBack raised before s w)
    (hload : ∀ l ∈ load, l.Reports raised .loader)
    (p : Processor α β) : HoldsBack raised before (run load p s w).2.1 (run load p s w).2.2 := by
  induction p generalizing s w with
  | done r => exact h
  | value next ih => exact ih _ (h.read hload)
  | present next ih => exact ih _ h
  | set v next ih => exact ih h
  | remove next ih => exact ih h

theorem surfaces_outcome {fs : List Failure} (h : Surfaces fs s.loads) : Surfaces fs s.outcome := by
  cases he : s.loadError with
  | some e =>
    rw [loads, he] at h
    rw [outcome_of_loadError he]
    exact h.of_error
  | none =>
    rw [loads, he] at h
    rw [h.eq_nil]
    exact .nil _

end StagedEntry

structure ListenerConfiguration.CreatesQuietly (raised : ω → List Failure)
    (l : ListenerConfiguration ω κ α) : Prop where
  listener : ∀ w, raised (l.listener.create w).2 = raised w
  filter : ∀ g ∈ l.filter, ∀ w, raised (g.create w).2 = raised w

structure CompletionListener.Records (told : ω → List (Except Error Unit))
    (l : CompletionListener ω) : Prop where
  completes : ∀ w, ∃ w', l.onCompletion.run w = (.ok (), w') ∧ told w' = told w ++ [.ok ()]
  excepts : ∀ e w, ∃ w', (l.onException e).run w = (.ok (), w') ∧ told w' = told w ++ [.error e]

namespace Cache

/-- The failures that were put on record from one state to another, and `own` after them: the last
one is what the result reports. -/
def Surfaced (raised : ω → List Failure) (own : List Failure) (s t : Cache ω κ α × ω)
    (r : Except Error γ) : Prop :=
  ∃ fs, raised t.2 = raised s.2 ++ fs ∧ Surfaces (fs ++ own) r

def processorFailure (k : κ) (p : Processor α β) (s : Cache ω κ α × ω) : Option Error :=
  match ((runStaged k p).run s).1 with
  | .ok (.error e, _) => some e
  | _ => none

variable {s : Cache ω κ α × ω} {c : Cache ω κ α} {w : ω}

theorem Op.Surfacing.surfaced {op : Op ω κ α γ} (h : op.Surfacing raised)
    (hs : s.1.Reporting raised) : Surfaced raised [] s (op.run s).2 (op.run s).1 := by
  obtain ⟨-, fs, hraised, hsurfaces⟩ := h s hs
  exact ⟨fs, hraised, by rwa [List.append_nil]⟩

theorem Op.Surfacing.commit (k : κ) (staged : StagedEntry α) :
    Op.Surfacing raised (commit k staged : Op ω κ α Unit) := by
  refine .bind (.ofExcept _) fun o => ?_
  cases o with
  | nothing => exact .pure ()
  | accessed => exact counts (·.recordHits 1)
  | loaded v => exact compositional.discard (storeValue k v)
  | created v => exact compositional.discard (storeValue k v)
  | updated v => exact compositional.discard (storeValue k v)
  | removed => exact compositional.discard (deleteValue k)

theorem runStaged_holdsBack (hs : s.1.Reporting raised) (k : κ) (p : Processor α β) :
    let t := ((runStaged k p).run s).2
    t.1.Reporting raised ∧ match ((runStaged k p).run s).1 with
      | .error _ => raised t.2 = raised s.2
      | .ok (_, staged) => StagedEntry.HoldsBack raised (raised s.2) staged t.2 := by
  obtain ⟨c, w⟩ := s
  cases hclosed : c.closed with
  | true =>
    rw [runStaged, Action.run_bind_of_error (run_ensureOpen_of_closed hclosed w)]
    exact ⟨hs, rfl⟩
  | false =>
    rw [run_runStaged hclosed]
    cases current k c with
    | error e => exact ⟨hs, rfl⟩
    | ok v =>
      have hload : ∀ load ∈ loading k c, load.Reports raised .loader := by
        intro load hload
        obtain ⟨l, hl, rfl⟩ := Option.map_eq_some_iff.1 hload
        exact (hs.loader l (loader_of_loader? hl)).load k
      have hstart : StagedEntry.HoldsBack raised (raised w) (.ofCurrent v) w :=
        ⟨[], (List.append_nil _).symm, .nil _⟩
      exact ⟨hs, hstart.run hload p⟩

theorem commit_surfaced {k : κ} {staged : StagedEntry α} {t : Cache ω κ α × ω}
    (ht : t.1.Reporting raised) (h : StagedEntry.HoldsBack raised (raised s.2) staged t.2) :
    Surfaced raised [] s ((commit k staged).run t).2 ((commit k staged).run t).1 := by
  obtain ⟨fs, hfs, hloads⟩ := h
  obtain ⟨-, gs, hgs, hcommit⟩ := Op.Surfacing.commit k staged t ht
  refine ⟨fs ++ gs, ?_, ?_⟩
  · rw [← List.append_assoc, ← hfs]
    exact hgs
  rw [List.append_nil]
  apply hcommit.append
  rintro rfl
  have houtcome := StagedEntry.surfaces_outcome hloads
  rw [commit, Action.run_bind, Action.run_ofExcept]
  cases ho : staged.outcome with
  | error e =>
    rw [ho] at houtcome
    exact houtcome.of_error
  | ok o =>
    rw [ho] at houtcome
    rw [houtcome.eq_nil]
    exact .nil _

theorem invokeRaw_surfaced (hs : s.1.Reporting raised) (k : κ) (p : Processor α β) :
    let x := invokeRaw k p s
    match processorFailure k p s with
    | some e => x.1.result = .error e
    | none => Surfaced raised [] s x.2 x.1.result := by
  obtain ⟨ht, hstaged⟩ := runStaged_holdsBack hs k p
  rw [invokeRaw_staged, processorFailure]
  rcases hrun : (runStaged k p).run s with ⟨e | ⟨e | b, staged⟩, t⟩ <;>
    simp only [hrun] at ht hstaged
  · exact ⟨[], by rw [List.append_nil]; exact hstaged, .nil _⟩
  · rfl
  · exact commit_surfaced ht hstaged

theorem invoke_surfaced (hs : s.1.Reporting raised) (k : κ) (p : Processor α β) :
    Surfaced raised ((processorFailure k p s).map (.processor, ·)).toList s ((invoke k p).run s).2
      ((invoke k p).run s).1 := by
  obtain ⟨ht, hstaged⟩ := runStaged_holdsBack hs k p
  rw [run_invoke_staged, processorFailure]
  rcases hrun : (runStaged k p).run s with ⟨e | ⟨e | b, staged⟩, t⟩ <;> rw [hrun] at ht hstaged
  · exact ⟨[], by rw [List.append_nil]; exact hstaged, .nil _⟩
  · obtain ⟨fs, hfs, -⟩ := hstaged
    exact ⟨fs, hfs, (Surfaces.single .processor e).append nofun⟩
  · obtain ⟨fs, hfs, hsurfaces⟩ := commit_surfaced ht hstaged
    simp only [Action.run_bind_pure]
    exact ⟨fs, hfs, hsurfaces.map _⟩

theorem invoke_keeps_reporting (k : κ) (p : Processor α β) :
    Action.Keeps (fun s => s.1.Reporting raised) (invoke k p : Op ω κ α β) := by
  intro s hs
  obtain ⟨ht, -⟩ := runStaged_holdsBack hs k p
  rw [run_invoke_staged]
  rcases hrun : (runStaged k p).run s with ⟨e | ⟨e | b, staged⟩, t⟩ <;> rw [hrun] at ht
  · exact ht
  · exact ht
  · simp only [Action.run_bind_pure]
    exact (Op.Surfacing.commit k staged t ht).1

theorem Surfaced.as {own : List Failure} {op : Op ω κ α γ}
    (h : Surfaced raised own s (op.run s).2 (op.run s).1)
    (f : γ → Reply κ α β) : Surfaced raised own s ((op.as f).run s).2 ((op.as f).run s).1 := by
  obtain ⟨fs, hfs, hsurfaces⟩ := h
  rw [Op.run_as]
  exact ⟨fs, hfs, hsurfaces.map f⟩

theorem Surfaced.of_silent {t : Cache ω κ α × ω} (h : raised t.2 = raised s.2)
    (r : Except Error γ) : Surfaced raised [] s t r := ⟨[], by rw [h, List.append_nil], .nil _⟩

theorem registerListener_surfaced {config : ListenerConfiguration ω κ α}
    (h : config.CreatesQuietly raised)
    (handle : ListenerHandle) (s : Cache ω κ α × ω) : Surfaced raised [] s
      ((registerListener handle config).run s).2 ((registerListener handle config).run s).1 := by
  obtain ⟨c, w⟩ := s
  apply Surfaced.of_silent
  cases hclosed : c.closed with
  | true => rw [registerListener, Action.run_bind_of_error (run_ensureOpen_of_closed hclosed w)]
  | false =>
    by_cases hknown : handle ∈ c.handles
    · rw [run_registerListener_of_known hclosed hknown]
    · rw [run_registerListener_of_new hclosed hknown]
      simp only [enlist, createOption]
      cases hfilter : config.filter with
      | none => exact h.listener w
      | some g => exact (h.filter g hfilter _).trans (h.listener w)

omit [DecidableEq κ] in
theorem report_told {told : ω → List (Except Error Unit)} {l : CompletionListener ω}
    (h : l.Records told) (r : Except Error Unit) (w : ω) :
    ∃ w', (report l r).run w = (.ok (), w') ∧ told w' = told w ++ [r] := by
  cases r with
  | ok x => exact h.completes w
  | error e => exact h.excepts e w

theorem loadAll_told {told : ω → List (Except Error Unit)}
    {listener : Option (CompletionListener ω)}
    (hl : ∀ l ∈ listener, l.Records told) (hopen : c.closed = false) (keys : List κ)
    (all : Bool) (w : ω) :
    let x := (loadAll keys all listener).run (c, w)
    let y := (loadInto keys all).run (c, w)
    x.1 = .ok () ∧ ∀ l ∈ listener, told x.2.2 = told y.2.2 ++ [y.1] := by
  rw [loadAll, Action.run_bind_of_ok (run_ensureOpen hopen w),
    Action.run_bind_of_ok (Action.run_attempt ..)]
  cases listener with
  | none => exact ⟨rfl, nofun⟩
  | some l =>
    rcases (loadInto keys all).run (c, w) with ⟨r, c₁, w₁⟩
    obtain ⟨w₂, hreport, htold⟩ := report_told (hl l rfl) r w₁
    have hrun : (onSome (some l) fun l => report l r).beside.run (c₁, w₁) = (.ok (), (c₁, w₂)) := by
      rw [onSome, Action.run_beside, hreport]
    rw [hrun]
    refine ⟨rfl, ?_⟩
    rintro _ ⟨⟩
    exact htold

theorem resultsOf_getElem? {step : κ → Op ω κ α β} (before : List κ) (k : κ) (after : List κ)
    (s : Cache ω κ α × ω) : (resultsOf step (before ++ k :: after) s).1[before.length]? =
      some (k, ((step k).run (resultsOf step before s).2).1) := by
  induction before generalizing s with
  | nil => rfl
  | cons j before ih => exact ih ((step j).run s).2

namespace Operation

def OnRecord (raised : ω → List Failure) (told : ω → List (Except Error Unit)) :
    Operation ω κ α β → Prop
  | .loadAll _ _ listener => ∀ l ∈ listener, l.Records told
  | .getOrPutWith k compute => (compute k).Leaves raised
  | .register _ config => config.CreatesQuietly raised
  | _ => True

/-- The caller of an operation gets the last failure of a component, and so it is for each
invocation of a batch. After a bulk load it is the completion listener that gets it. What is run
raw is no component but a callback of the caller's: its failure comes back as it is, and it is for
typed invocations to attribute that. -/
def Surfaces [DecidableEq α] (raised : ω → List Failure) (told : ω → List (Except Error Unit))
    (op : Operation ω κ α β) (s : Cache ω κ α × ω) : Prop :=
  let x := op.run id s
  match op with
  | .loadAll keys all listener =>
    let y := (loadInto keys all).run s
    Surfaced raised [] s y.2 y.1 ∧ x.1 = .ok .done ∧ ∀ l ∈ listener,
      told x.2.2 = told y.2.2 ++ [y.1]
  | .invoke k p => Surfaced raised ((processorFailure k p s).map (.processor, ·)).toList s x.2 x.1
  | .invokeAll ks p =>
    ∃ rs, x.1 = .ok (.outputs rs) ∧ ∀ before k after, ks = before ++ k :: after →
      let t := (Cache.invokeAll p before s).2
      let y := (Cache.invoke k (p k)).run t
      rs[before.length]? = some (k, y.1) ∧
        Surfaced raised ((processorFailure k (p k) t).map (.processor, ·)).toList t y.2 y.1
  | .invokeRaw k p =>
    let y := Cache.invokeRaw k p s
    x.1 = .ok (.raw y.1) ∧ match processorFailure k p s with
      | some e => y.1.result = .error e
      | none => Surfaced raised [] s y.2 y.1.result
  | _ => Surfaced raised [] s x.2 x.1

end Operation

/-- Every failure of a component surfaces, as one of that component's kind that leads back to it. -/
theorem failures_surface [DecidableEq α] {told : ω → List (Except Error Unit)}
    (hc : c.Reporting raised)
    (hopen : c.closed = false) {op : Operation ω κ α β} (hop : op.OnRecord raised told) (w : ω) :
    op.Surfaces raised told (c, w) := by
  have hedits : Compositional fun _ (op : Op ω κ α _) => op.Surfacing raised :=
    Op.Surfacing.compositional
  have hreply {γ : Type} (f : γ → Reply κ α β) {a : Op ω κ α γ} (ha : a.Surfacing raised) :
      Surfaced raised [] (c, w) ((a.as f).run (c, w)).2 ((a.as f).run (c, w)).1 :=
        (ha.surfaced hc).as f
  have hrun (hop : op.Edits) : Surfaced raised [] (c, w) (op.run id (c, w)).2
    (op.run id (c, w)).1 :=
    (hedits.run hop).surfaced hc
  have hsame {f : Cache ω κ α → Cache ω κ α}
    (hf : ∀ c, c.Reporting raised → (f c).Reporting raised) :
      Op.Surfacing raised (update f) := .update hf
  cases op with
  | get k => exact hreply _ (.get k)
  | getAll ks => exact hreply _ (hedits.getEach .get ks ∅)
  | getOrPutWith k compute =>
    have hcompute : Action.Surfacing (fun _ => True) raised (compute k) :=
      .of_leaves (fun _ _ => trivial) hop
    exact hreply _ (hedits.getOrPutWith (.get k) (.world hcompute))
  | loadAll keys all listener =>
    obtain ⟨hok, htold⟩ := loadAll_told hop hopen keys all w
    have hx : (Operation.loadAll keys all listener : Operation ω κ α β).run id (c, w) =
        (.ok .done, ((loadAll keys all listener).run (c, w)).2) := by
      change ((loadAll keys all listener).as fun _ => .done).run (c, w) = _
      rw [Op.run_as, hok]
      rfl
    rw [Operation.Surfaces, hx]
    exact ⟨(Op.Surfacing.loadInto keys all).surfaced hc, rfl, htold⟩
  | invoke k p => exact (invoke_surfaced hc k p).as _
  | invokeAll ks p =>
    refine ⟨_, rfl, ?_⟩
    rintro before k after rfl
    refine ⟨resultsOf_getElem? before k after (c, w), invoke_surfaced ?_ k (p k)⟩
    exact keeps_resultsOf (fun k => invoke_keeps_reporting k (p k)) before (c, w) hc
  | invokeRaw k p => exact ⟨rfl, invokeRaw_surfaced hc k p⟩
  | register handle config => exact (registerListener_surfaced hop handle (c, w)).as _
  | deregister handle =>
    refine hreply _ (hedits.opened (hsame fun c hc => ⟨hc.loader, hc.writer, fun r hr => ?_⟩))
    exact hc.listeners r (List.mem_filter.1 hr).1
  | clear => exact hreply _ (hedits.opened (hsame fun _ hc => ⟨hc.loader, hc.writer, hc.listeners⟩))
  | clearStatistics => exact hreply _ (hsame fun _ hc => ⟨hc.loader, hc.writer, hc.listeners⟩)
  | close => exact hreply _ (hsame fun _ hc => ⟨hc.loader, hc.writer, hc.listeners⟩)
  | _ => exact hrun trivial

end Cache

structure Faults : Type where
  raised : List Failure := []
  told : List (Except Error Unit) := []

namespace Faults

def fail (x : Component) (e : Error) :
    Action Faults γ := fun n => (.error e, { n with raised := n.raised ++ [(x, e)] })

theorem fail_reports (x : Component) (e : Error) :
    (fail x e : Action Faults γ).Reports Faults.raised x :=
  fun _ => rfl

def loader (fault : κ → Error) : Loader Faults κ α where
  load k := fail .loader (fault k)
  loadAll ks := match ks with
    | [] => pure ∅
    | k :: _ => fail .loader (fault k)

theorem loader_reports (fault : κ → Error) :
    (loader fault : Loader Faults κ α).Reports Faults.raised where
  load k := fail_reports .loader (fault k)
  loadAll ks := by
    cases ks with
    | nil => exact fun n => (List.append_nil n.raised).symm
    | cons k ks => exact fail_reports .loader (fault k)

def configuration (fault : κ → Error) : Configuration Faults κ α where
  flags := { (default : Flags) with readThrough := true }
  listeners := []
  loader := some (.singleton 0 (loader fault))
  writer := none
  expiry := .singleton 1 .eternal

end Faults

theorem Cache.failures_surface_held_back :
    let fault (k : Nat) : Error := if k = 1 then .cache "gone" else .raised .loader "slow"
    let c := (create "c" (Faults.configuration fault) .ok {}).1
    let p (k : Nat) : Processor Nat Unit :=
      .value fun _ => .done (if k = 2 then .error (fault k) else .ok ())
    let op : Operation Faults Nat Nat Unit := .invokeAll [1, 2, 3] p
    (op.run id (c, {})).1 = .ok (.outputs [
      (1, .error (.wrapped .loader (fault 1).message (fault 1))),
      (2, .error (.wrapped .processor (fault 2).message (fault 2))),
      (3, .error (fault 3))]) ∧
      op.Surfaces Faults.raised Faults.told (c, {}) := by
  intro fault c p op
  have hc : c.Reporting Faults.raised := by
    refine ⟨?_, nofun, nofun⟩
    rintro l ⟨⟩
    exact Faults.loader_reports fault
  have hop : op.OnRecord Faults.raised Faults.told := trivial
  exact ⟨rfl, failures_surface hc rfl hop {}⟩

end EntryCache

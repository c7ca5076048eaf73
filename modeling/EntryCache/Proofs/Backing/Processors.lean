import EntryCache.Proofs.Backing.Coherence
import EntryCache.Proofs.Staging.Sides

namespace EntryCache

variable {ω κ α β ρ : Type} [DecidableEq κ] {stored : ω → κ → Option α}

structure Writer.Accepts (wr : Writer ω κ α) : Prop where
  writes : ∀ k v w e, ((wr.write k v).run w).1 ≠ .error e
  deletes : ∀ k w e, ((wr.delete k).run w).1 ≠ .error e

structure Loader.Answers (stored : ω → κ → Option α) (l : Loader ω κ α) : Prop where
  leaves : ∀ k, (l.load k).Leaves stored
  answers : ∀ k w, ((l.load k).run w).1 = .ok (stored w k)

theorem Loader.Answers.reads {l : Loader ω κ α} (h : l.Answers stored) : l.Reads stored where
  leaves := h.leaves
  loaded h' := (Except.ok.inj ((h.answers _ _).symm.trans h')).symm

def Call.operation (k : κ) : Call α → Cache.Operation ω κ α β
  | .value => .get k
  | .present => .containsKey k
  | .set v => .put k v
  | .remove => .remove k

namespace Cache

/-- An open cache over a store whose writer and loader do not fail. -/
structure Serves (stored : ω → κ → Option α) (c : Cache ω κ α) : Prop where
  opened : c.closed = false
  writer : ∃ wr, c.writer? = some wr ∧ wr.Maintains stored ∧ wr.Accepts
  loader : ∀ l ∈ c.loader?, l.Answers stored
  listeners : ∀ r ∈ c.listeners, r.Leaves stored

def sides (stored : ω → κ → Option α) (k : κ) (s : Cache ω κ α × ω) : Sides α :=
  ⟨s.1.entries.get? k, stored s.2 k⟩

structure Reaches (stored : ω → κ → Option α) (k : κ) (s t : Cache ω κ α × ω)
    (m : Sides α) : Prop where
  cache : ∃ es n, t.1 = { s.1 with entries := es, stats := n }
  sides : sides stored k t = m

theorem Still.reaches {s t : Cache ω κ α × ω} (h : Still stored s t) (k : κ) :
    Reaches stored k s t (Cache.sides stored k s) := by
  obtain ⟨n, hc⟩ := h.cache
  refine ⟨⟨s.1.entries, n, hc⟩, ?_⟩
  rw [Cache.sides, hc, h.store]
  rfl

theorem Moved.reaches {s t : Cache ω κ α × ω} {k : κ} {entry value : Option α}
    (h : Moved stored k entry value s t) : Reaches stored k s t ⟨entry, value⟩ := by
  obtain ⟨es, n, hc, hes⟩ := h.cache
  refine ⟨⟨es, n, hc⟩, ?_⟩
  rw [Cache.sides, hc, h.store]
  simp only [hes, Function.update_self]

namespace Serves

variable {c : Cache ω κ α}

theorem of_same (h : c.Serves stored) (es : FiniteMap κ α) (n : Statistics) :
    ({ c with entries := es, stats := n } : Cache ω κ α).Serves stored :=
  ⟨h.opened, h.writer, h.loader, h.listeners⟩

theorem storeValue (h : c.Serves stored) (k : κ) (v : α) (w : ω) :
    Reaches stored k (c, w) ((storeValue k v).run (c, w)).2
      ((sides stored k (c, w)).put c.copy v) := by
  obtain ⟨wr, hwr, hm, ha⟩ := h.writer
  rcases storeValue_effect hwr hm h.listeners k v w with ⟨⟨e, he⟩, -⟩ | hs
  · exact absurd he (ha.writes k v w e)
  · exact hs.reaches

theorem deleteValue (h : c.Serves stored) (k : κ) (w : ω) :
    Reaches stored k (c, w) ((deleteValue k).run (c, w)).2 .empty := by
  obtain ⟨wr, hwr, hm, ha⟩ := h.writer
  rcases deleteValue_effect hwr hm h.listeners k w with ⟨⟨e, he⟩, -⟩ | hs
  · exact absurd he (ha.deletes k w e)
  · exact hs.reaches

theorem readThrough (h : c.Serves stored) {l : Loader ω κ α} (hl : l.Answers stored) {k : κ}
    (hk : c.entries.get? k = none) (w : ω) :
    Reaches stored k (c, w) ((readThrough k l).run (c, w)).2
      ((sides stored k (c, w)).readThrough c.copy) := by
  rcases readThrough_effect hl.reads h.listeners k w with ⟨⟨e, he⟩, -⟩ | hs
  · rw [hl.answers] at he
    cases he
  · cases hv : stored w k with
    | none =>
      rw [Sides.readThrough_of_none hv]
      rw [hv] at hs
      exact hs.reaches k
    | some v =>
      rw [Sides.readThrough_of_stored hk hv]
      rw [hv] at hs
      exact hs.reaches

theorem get (h : c.Serves stored) (k : κ) (w : ω) :
    Reaches stored k (c, w) ((get k).run (c, w)).2
      ((sides stored k (c, w)).move c.copy c.loader?.isSome .value) := by
  cases hk : c.entries.get? k with
  | some v =>
    obtain ⟨n, hn⟩ := run_get_of_mapped h.opened hk w
    rw [hn, Sides.move_value_of_fixed (Sides.readThrough_of_some hk)]
    exact ⟨⟨c.entries, n, rfl⟩, rfl⟩
  | none =>
    rw [run_get_of_unmapped h.opened hk]
    cases hl : c.loader? with
    | none => exact ⟨⟨c.entries, _, rfl⟩, rfl⟩
    | some l =>
      have hmiss : c.countMiss.Serves stored := h.of_same c.entries _
      obtain ⟨⟨es, n, hc⟩, hm⟩ := hmiss.readThrough (h.loader l hl) hk w
      exact ⟨⟨es, n, hc⟩, hm⟩

end Serves

def replay [DecidableEq α] (k : κ) (cs : List (Call α)) (s : Cache ω κ α × ω) : Cache ω κ α × ω :=
  (Operation.runAll (cs.map (Call.operation k) : List (Operation ω κ α Unit)) s).2

theorem replay_cons [DecidableEq α] (k : κ) (call : Call α) (cs : List (Call α))
    (s : Cache ω κ α × ω) : replay k (call :: cs) s = replay k cs
      (((call.operation k : Operation ω κ α Unit).run id).run s).2 := rfl

namespace Serves

variable {c : Cache ω κ α}

theorem operation [DecidableEq α] (h : c.Serves stored) (k : κ) (call : Call α) (w : ω) :
    Reaches stored k (c, w) (((call.operation k : Operation ω κ α β).run id).run (c, w)).2
      ((sides stored k (c, w)).move c.copy c.loader?.isSome call) := by
  have hopen := run_ensureOpen h.opened w
  cases call with
  | value =>
    change Reaches _ _ _ (((Cache.get k).as _).run (c, w)).2 _
    rw [Op.as, Action.snd_run_bind_pure]
    exact h.get k w
  | present =>
    change Reaches _ _ _ (((Cache.containsKey k).as _).run (c, w)).2 _
    rw [Op.as, Action.snd_run_bind_pure, Cache.containsKey, Action.run_bind_of_ok hopen]
    exact ⟨⟨c.entries, c.stats, rfl⟩, rfl⟩
  | set v =>
    change Reaches _ _ _ (((Cache.put k v).as _).run (c, w)).2 _
    rw [Op.as, Action.snd_run_bind_pure, Cache.put, Action.run_bind_of_ok hopen, Action.run_discard]
    exact h.storeValue k v w
  | remove =>
    change Reaches _ _ _ (((Cache.remove k).as _).run (c, w)).2 _
    rw [Op.as, Action.snd_run_bind_pure, Cache.remove, Action.run_bind_of_ok hopen,
      Action.snd_run_bind_pure]
    exact h.deleteValue k w

theorem replay [DecidableEq α] (h : c.Serves stored) (k : κ) (cs : List (Call α)) (w : ω) :
    sides stored k (replay k cs (c, w)) =
      cs.foldl (Sides.move c.copy c.loader?.isSome) (sides stored k (c, w)) := by
  induction cs generalizing c w with
  | nil => rfl
  | cons call cs ih =>
    obtain ⟨⟨es, n, hc⟩, hm⟩ := h.operation (β := Unit) k call w
    rcases hs : (((call.operation k : Operation ω κ α Unit).run id).run (c, w)).2 with ⟨c', w'⟩
    rw [hs] at hc hm
    obtain rfl : c' = { c with entries := es, stats := n } := hc
    rw [replay_cons, hs, List.foldl_cons, ← hm]
    exact ih (h.of_same es n) w'

end Serves

def processorCalls (k : κ) (p : Processor α β) (s : Cache ω κ α × ω) : List (Call α) :=
  match current k s.1 with
  | .ok v => StagedEntry.calls (loading k s.1) p (.ofCurrent v) s.2
  | .error _ => []

theorem isSome_of_current {k : κ} {c : Cache ω κ α} {v : Option α} (h : current k c = .ok v) :
    (c.entries.get? k).isSome = v.isSome := by
  unfold current at h
  split at h
  · next u hk =>
    rw [hk]
    cases hcopy : c.copy u with
    | error e => rw [hcopy] at h; cases h
    | ok u' => rw [hcopy] at h; cases h; rfl
  · next hk =>
    cases h
    rw [hk]

namespace Serves

variable {c : Cache ω κ α}

theorem discards (h : c.Serves stored) (k : κ) (v : α) (w : ω) :
    sides stored k ((discard (Cache.storeValue k v)).run (c, w)).2 =
      (sides stored k (c, w)).put c.copy v := by
  rw [Action.run_discard]
  exact (h.storeValue k v w).sides

theorem apply (h : c.Serves stored) (k : κ) (o : Outcome α) (w : ω) :
    sides stored k ((apply k o).run (c, w)).2 = (sides stored k (c, w)).commit c.copy o := by
  cases o with
  | nothing => rfl
  | accessed => rfl
  | loaded v => exact h.discards k v w
  | created v => exact h.discards k v w
  | updated v => exact h.discards k v w
  | removed =>
    change sides stored k ((discard (Cache.deleteValue k)).run (c, w)).2 = _
    rw [Action.run_discard]
    exact (h.deleteValue k w).sides

theorem invoke (h : c.Serves stored) {k : κ} {p : Processor α β} {w : ω} {v : Option α} {b : β}
    (hv : current k c = .ok v)
    (hrun : (StagedEntry.run (loading k c) p (.ofCurrent v) w).1 = .ok b) :
    ((invoke k p).run (c, w)).2 =
      ((commit k (StagedEntry.run (loading k c) p (.ofCurrent v) w).2.1).run
        (c, (StagedEntry.run (loading k c) p (.ofCurrent v) w).2.2)).2 := by
  rw [run_invoke h.opened]
  simp only [hv]
  rcases hstaged : StagedEntry.run (loading k c) p (.ofCurrent v) w with ⟨r, staged, w₁⟩
  obtain rfl : r = .ok b := by rwa [hstaged] at hrun
  exact Action.snd_run_bind_pure ..

theorem loadsFrom (h : c.Serves stored) (k : κ) (w : ω) :
    StagedEntry.LoadsFrom (loading k c) (fun w' => stored w' = stored w) (stored w k) := by
  intro _ hload w' hw'
  obtain ⟨l, hl, rfl⟩ := Option.map_eq_some_iff.1 hload
  have hanswers := h.loader l hl
  refine ⟨?_, (hanswers.leaves k w').trans hw'⟩
  rw [← hw']
  exact hanswers.answers k w'

end Serves

end Cache

namespace Table

def cache (t : Table κ α) : Cache (Table κ α) κ α × Table κ α :=
  Cache.create "table" (configuration fun _ => false) .ok t

theorem cache_serves (t : Table κ α) : (cache t).1.Serves id where
  opened := rfl
  writer := ⟨writer fun _ => false, rfl, writer_maintains _, fun _ _ _ _ => nofun,
      fun _ _ _ => nofun⟩
  loader := by
    rintro l ⟨⟩
    exact ⟨fun _ _ => rfl, fun _ _ => rfl⟩
  listeners := by
    intro r hr
    obtain rfl := List.mem_singleton.1 hr
    refine ⟨fun t _ => ?_, fun _ hg => ?_⟩
    · cases t <;> exact fun _ => rfl
    · cases hg

end Table

namespace Cache

/-- A processor that ends well leaves entry and store as its calls do one by one, unless it removes
last what only the store has, or sets last what has no copy. -/
theorem invoke_agrees_iff [DecidableEq α] {c : Cache ω κ α} (h : c.Serves stored) {k : κ}
    {p : Processor α β} {w : ω}
    {b : β} {staged : StagedEntry α} (hrun : ((runStaged k p).run (c, w)).1 = .ok (.ok b, staged)) :
    let calls := processorCalls k p (c, w)
    let replayed := replay k calls (c, w)
    sides stored k ((invoke k p).run (c, w)).2 = sides stored k replayed ↔
      (Call.lastChange calls = some none → c.entries.get? k = none → stored w k = none) ∧
      ∀ v, Call.lastChange calls = some (some v) → ∀ e, c.copy v = .error e →
        replayed.1.entries.get? k = c.entries.get? k := by
  intro calls replayed
  rw [run_runStaged h.opened] at hrun
  cases hv : current k c with
  | error e =>
    rw [hv] at hrun
    cases hrun
  | ok v =>
    rw [hv] at hrun
    have hb : (StagedEntry.run (loading k c) p (.ofCurrent v) w).1 = .ok b :=
      congrArg Prod.fst (Except.ok.inj hrun)
    have hcalls : calls = StagedEntry.calls (loading k c) p (.ofCurrent v) w := by
      simp only [calls, processorCalls, hv]
    have hstart : StagedEntry.Tracks c.copy (sides stored k (c, w)) v none (.ofCurrent v)
      (sides stored k (c, w)) :=
      .ofCurrent (isSome_of_current hv)
    -- The staged entry and the two sides go through the same calls; what they come to is then
    -- compared.
    obtain ⟨hend, hw⟩ := hstart.answerAll (h.loadsFrom k w) calls rfl
    obtain ⟨o, ho, hiff⟩ := hend.commit_eq_iff
    have hloads : (loading k c).isSome = c.loader?.isSome := Option.isSome_map
    rw [hloads, ← h.replay] at hiff
    rw [hcalls, ← StagedEntry.run_calls] at ho hw
    have hinvoke : sides stored k ((invoke k p).run (c, w)).2 =
        (sides stored k (c, w)).commit c.copy o := by
      rw [h.invoke hv hb, commit, ho, Action.run_bind_of_ok (Action.run_ofExcept _ _),
        h.apply, sides, hw]
      rfl
    rw [hinvoke]
    exact hiff

theorem invoke_agrees_iff_loaded :
    let s := Table.cache (some : Table Nat Nat)
    let p : Processor Nat Unit := .value fun v =>
      .set (v.getD 0 + 6) (.present fun _ => .done (.ok ()))
    sides id 1 ((invoke 1 p).run s).2 = sides id 1 (replay 1 (processorCalls 1 p s) s) := by
  intro s p
  refine (invoke_agrees_iff (Table.cache_serves some) (b := ()) (k := 1) (p := p) rfl).2 ⟨?_, ?_⟩
  · intro h
    cases h
  · intro v _ e he
    cases he

/-- The key is in the table only, and removing it is all that the processor does. -/
theorem invoke_remove_leaves_stored :
    let s := Table.cache (some : Table Nat Nat)
    let p : Processor Nat Unit := .removeValue
    s.1.Serves id ∧ ((runStaged 1 p).run s).1.map Prod.fst = .ok (.ok ()) ∧
      sides id 1 ((invoke 1 p).run s).2 ≠ sides id 1 (replay 1 (processorCalls 1 p s) s) := by
  refine ⟨Table.cache_serves some, rfl, ?_⟩
  decide

end Cache

end EntryCache

import EntryCache.Cache.Operation
import EntryCache.Proofs.Staging.Calls

namespace EntryCache.Cache

variable {ω κ α β γ : Type} [DecidableEq κ]

@[simp] theorem run_look (f : Cache ω κ α → β) (s : Cache ω κ α × ω) :
    (look f).run s = (.ok (f s.1), s) := rfl

@[simp] theorem run_update (f : Cache ω κ α → Cache ω κ α) (s : Cache ω κ α × ω) :
    (update f).run s = (.ok (), (f s.1, s.2)) := rfl

@[simp] theorem run_copied (v : α) (s : Cache ω κ α × ω) : (copied v).run s = (s.1.copy v, s) := rfl

theorem run_ensureOpen {c : Cache ω κ α} (h : c.closed = false) (w : ω) :
    ensureOpen.run (c, w) = (.ok (), (c, w)) := by
  simp [ensureOpen, Action.run, h]

theorem run_ensureOpen_of_closed {c : Cache ω κ α} (h : c.closed = true) (w : ω) :
    ensureOpen.run (c, w) = (.error (closedError c.name), (c, w)) := by
  simp [ensureOpen, Action.run, h]

theorem loader_of_loader? {c : Cache ω κ α} {l : Loader ω κ α} (h : c.loader? = some l) :
    c.loader = some l := by
  unfold loader? at h
  split at h
  · exact h
  · cases h

theorem writer_of_writer? {c : Cache ω κ α} {wr : Writer ω κ α} (h : c.writer? = some wr) :
    c.writer = some wr := by
  unfold writer? at h
  split at h
  · exact h
  · cases h

theorem run_writeThrough (k : κ) (v : α) (c : Cache ω κ α) (w : ω) :
    (writeThrough k v).run (c, w) =
      match c.writer? with
      | some wr => (((wr.write k v).run w).1.mapError (·.attributeTo .writer),
          (c, ((wr.write k v).run w).2))
      | none => (.ok (), (c, w)) := by
  change (onSome c.writer? _).beside.run (c, w) = _
  cases c.writer? with
  | none => rfl
  | some wr => simp only [onSome, Action.run_beside, Action.run_mapError]

theorem run_deleteThrough (k : κ) (c : Cache ω κ α) (w : ω) :
    (deleteThrough k).run (c, w) =
      match c.writer? with
      | some wr => (((wr.delete k).run w).1.mapError (·.attributeTo .writer),
          (c, ((wr.delete k).run w).2))
      | none => (.ok (), (c, w)) := by
  change (onSome c.writer? _).beside.run (c, w) = _
  cases c.writer? with
  | none => rfl
  | some wr => simp only [onSome, Action.run_beside, Action.run_mapError]

theorem notify_cache (t : EventType) (k : κ) (value old : Option α) (c : Cache ω κ α) (w : ω) :
    ((notify t k value old).run (c, w)).2.1 = c := rfl

theorem run_notify_of_no_listeners {c : Cache ω κ α} (h : c.listeners = []) (t : EventType) (k : κ)
    (value old : Option α) (w : ω) : (notify t k value old).run (c, w) = (.ok (), (c, w)) := by
  change (Action.forEach _ c.listeners).beside.run (c, w) = _
  rw [h]
  rfl

def tellStored (k : κ) (v : α) : Option α → Op ω κ α Unit
  | some o => notify .updated k (some v) (some o)
  | none => notify .created k (some v) none

theorem tellStored_cache (k : κ) (v : α) (old : Option α) (c : Cache ω κ α) (w : ω) :
    ((tellStored k v old).run (c, w)).2.1 = c := by
  cases old <;> rfl

theorem run_tellStored_of_no_listeners {c : Cache ω κ α} (h : c.listeners = []) (k : κ) (v : α)
    (old : Option α) (w : ω) : (tellStored k v old).run (c, w) = (.ok (), (c, w)) := by
  cases old with
  | none => exact run_notify_of_no_listeners h ..
  | some o => exact run_notify_of_no_listeners h ..

theorem run_storeValue_of_refused {k : κ} {v : α} {c : Cache ω κ α} {w w₁ : ω} {e : Error}
    (h : (writeThrough k v).run (c, w) = (.error e, (c, w₁))) :
    (storeValue k v).run (c, w) = (.error e, (c, w₁)) := by
  rw [storeValue, Action.run_bind_of_error h]

theorem run_storeValue_of_no_copy {k : κ} {v : α} {c : Cache ω κ α} {w w₁ : ω} {e : Error}
    (h : (writeThrough k v).run (c, w) = (.ok (), (c, w₁))) (hcopy : c.copy v = .error e) :
    (storeValue k v).run (c, w) = (.error e, (c, w₁)) := by
  rw [storeValue, Action.run_bind_of_ok h]
  apply Action.run_bind_of_error
  rw [run_copied, hcopy]

theorem run_storeValue_of_written {k : κ} {v u : α} {c : Cache ω κ α} {w w₁ : ω}
    (h : (writeThrough k v).run (c, w) = (.ok (), (c, w₁))) (hcopy : c.copy v = .ok u) :
    (storeValue k v).run (c, w) =
      ((tellStored k v (c.entries.get? k) >>= fun _ => pure (c.entries.get? k) :
        Op ω κ α (Option α))).run ((c.enter k u).countPut, w₁) := by
  have hu : (copied v).run (c, w₁) = (.ok u, (c, w₁)) := by rw [run_copied, hcopy]
  rw [storeValue, Action.run_bind_of_ok h, Action.run_bind_of_ok hu]
  rw [Action.run_bind_of_ok (run_look _ _), Action.run_bind_of_ok (run_update _ _)]
  cases c.entries.get? k <;> rfl

theorem run_deleteValue_of_refused {k : κ} {c : Cache ω κ α} {w w₁ : ω} {e : Error}
    (h : (deleteThrough k).run (c, w) = (.error e, (c, w₁))) :
    (deleteValue k).run (c, w) = (.error e, (c, w₁)) := by
  rw [deleteValue, Action.run_bind_of_error h]

theorem run_deleteValue_of_absent {k : κ} {c : Cache ω κ α} {w w₁ : ω}
    (h : (deleteThrough k).run (c, w) = (.ok (), (c, w₁))) (hold : c.entries.get? k = none) :
    (deleteValue k).run (c, w) = (.ok none, (c, w₁)) := by
  rw [deleteValue, Action.run_bind_of_ok h, Action.run_bind_of_ok (run_look _ _)]
  simp only [hold]
  rfl

def without (k : κ) (c : Cache ω κ α) :
    Cache ω κ α := { c with entries := c.entries.erase k }.countRemoval

theorem run_deleteValue_of_mapped {k : κ} {c : Cache ω κ α} {w w₁ : ω} {o : α}
    (h : (deleteThrough k).run (c, w) = (.ok (), (c, w₁))) (hold : c.entries.get? k = some o) :
    (deleteValue k).run (c, w) =
      ((notify .removed k (some o) (some o) >>= fun _ => pure (some o) : Op ω κ α (Option α))).run
        (c.without k, w₁) := by
  rw [deleteValue, Action.run_bind_of_ok h, Action.run_bind_of_ok (run_look _ _)]
  simp only [hold]
  rfl

theorem run_loading {k : κ} {l : Loader ω κ α} {w w₁ : ω} {r : Except Error (Option α)}
    (h : (l.load k).run w = (r, w₁)) (c : Cache ω κ α) :
    ((l.load k).mapError (·.attributeTo .loader)).beside.run (c, w) =
      (r.mapError (·.attributeTo .loader), (c, w₁)) := by
  rw [Action.run_beside, Action.run_mapError, h]

theorem run_readThrough_of_failed {k : κ} {l : Loader ω κ α} {c : Cache ω κ α}
    {w w₁ : ω} {e : Error} (h : (l.load k).run w = (.error e, w₁)) :
    (readThrough k l).run (c, w) = (.error (e.attributeTo .loader), (c, w₁)) :=
  Action.run_bind_of_error (run_loading h c)

theorem run_readThrough_of_none {k : κ} {l : Loader ω κ α} {c : Cache ω κ α} {w w₁ : ω}
    (h : (l.load k).run w = (.ok none, w₁)) :
    (readThrough k l).run (c, w) = (.ok none, (c, w₁)) :=
  Action.run_bind_of_ok (run_loading h c)

theorem run_readThrough_of_no_copy {k : κ} {l : Loader ω κ α} {c : Cache ω κ α} {w w₁ : ω}
    {v : α} {e : Error} (h : (l.load k).run w = (.ok (some v), w₁)) (hcopy : c.copy v = .error e) :
    (readThrough k l).run (c, w) = (.error e, (c, w₁)) := by
  rw [readThrough, Action.run_bind_of_ok (run_loading h c)]
  apply Action.run_bind_of_error
  rw [run_copied, hcopy]

theorem run_readThrough_of_some {k : κ} {l : Loader ω κ α} {c : Cache ω κ α} {w w₁ : ω} {v u : α}
    (h : (l.load k).run w = (.ok (some v), w₁)) (hcopy : c.copy v = .ok u) :
    (readThrough k l).run (c, w) =
      ((notify .created k (some v) none >>= fun _ => pure (some v) : Op ω κ α (Option α))).run
        (c.enter k u, w₁) := by
  have hu : (copied v).run (c, w₁) = (.ok u, (c, w₁)) := by rw [run_copied, hcopy]
  rw [readThrough, Action.run_bind_of_ok (run_loading h c)]
  change ((copied v >>= _).run _) = _
  rw [Action.run_bind_of_ok hu, Action.run_bind_of_ok (run_update _ _)]

theorem run_get_of_mapped {k : κ} {c : Cache ω κ α} {v : α} (h : c.closed = false)
    (hk : c.entries.get? k = some v)
    (w : ω) : ∃ n, ((get k).run (c, w)).2 = ({ c with stats := n }, w) := by
  rw [get, Action.run_bind_of_ok (run_ensureOpen h w), Action.run_bind_of_ok (run_look _ _)]
  simp only [hk]
  cases hcopy : c.copy v with
  | error e =>
    rw [Action.run_bind_of_error (by rw [run_copied, hcopy])]
    exact ⟨c.stats, rfl⟩
  | ok u =>
    rw [Action.run_bind_of_ok (by rw [run_copied, hcopy])]
    exact ⟨_, rfl⟩

theorem run_get_of_copied {k : κ} {c : Cache ω κ α} {v u : α} (h : c.closed = false)
    (hk : c.entries.get? k = some v)
    (hcopy : c.copy v = .ok u) (w : ω) : (get k).run (c, w) = (.ok (some u), (c.countHit, w)) := by
  have hu : (copied v).run (c, w) = (.ok u, (c, w)) := by rw [run_copied, hcopy]
  rw [get, Action.run_bind_of_ok (run_ensureOpen h w), Action.run_bind_of_ok (run_look _ _)]
  simp only [hk]
  rw [Action.run_bind_of_ok hu, Action.run_bind_of_ok (run_update _ _)]
  rfl

theorem run_get_of_no_copy {k : κ} {c : Cache ω κ α} {v : α} {e : Error} (h : c.closed = false)
    (hk : c.entries.get? k = some v) (hcopy : c.copy v = .error e) (w : ω) :
    (get k).run (c, w) = (.error e, (c, w)) := by
  have he : (copied v).run (c, w) = (.error e, (c, w)) := by rw [run_copied, hcopy]
  rw [get, Action.run_bind_of_ok (run_ensureOpen h w), Action.run_bind_of_ok (run_look _ _)]
  simp only [hk]
  exact Action.run_bind_of_error he

theorem run_get_of_unmapped {k : κ} {c : Cache ω κ α} (h : c.closed = false)
    (hk : c.entries.get? k = none) (w : ω) : (get k).run (c, w) =
      match c.loader? with
      | some l => (readThrough k l).run (c.countMiss, w)
      | none => (.ok none, (c.countMiss, w)) := by
  rw [get, Action.run_bind_of_ok (run_ensureOpen h w), Action.run_bind_of_ok (run_look _ _)]
  simp only [hk]
  rw [Action.run_bind_of_ok (run_update _ _), Action.run_bind_of_ok (run_look _ _)]
  have hl : c.countMiss.loader? = c.loader? := rfl
  simp only [hl]
  cases c.loader? <;> rfl

def current (k : κ) (c : Cache ω κ α) : Except Error (Option α) :=
  match c.entries.get? k with
  | some v => (c.copy v).map some
  | none => .ok none

def loading (k : κ) (c : Cache ω κ α) : Option (Action ω (Option α)) := c.loader?.map (·.load k)

theorem run_runStaged {c : Cache ω κ α} (h : c.closed = false) (k : κ) (p : Processor α β) (w : ω) :
    (runStaged k p).run (c, w) =
      match current k c with
      | .error e => (.error e, (c, w))
      | .ok v =>
        let r := StagedEntry.run (loading k c) p (.ofCurrent v) w
        (.ok (r.1, r.2.1), (c, r.2.2)) := by
  rw [runStaged, Action.run_bind_of_ok (run_ensureOpen h w), Action.run_bind_of_ok (run_look _ _)]
  unfold current
  cases hk : c.entries.get? k with
  | none => rfl
  | some v =>
    simp only
    cases hcopy : c.copy v with
    | error e =>
      have hrun : (some <$> copied v).run (c, w) = (.error e, (c, w)) := by
        rw [Action.run_map, run_copied, hcopy]; rfl
      rw [Action.run_bind_of_error hrun]
      rfl
    | ok u =>
      have hrun : (some <$> copied v).run (c, w) = (.ok (some u), (c, w)) := by
        rw [Action.run_map, run_copied, hcopy]
        rfl
      rw [Action.run_bind_of_ok hrun]
      rfl

theorem run_runStaged_map (f : Except Error β → Except Error γ) (k : κ) (p : Processor α β)
    (s : Cache ω κ α × ω) : (runStaged k (p.map f)).run s =
      (((runStaged k p).run s).1.map fun x => (f x.1, x.2), ((runStaged k p).run s).2) := by
  obtain ⟨c, w⟩ := s
  cases hclosed : c.closed with
  | true => simp only [runStaged,
      Action.run_bind_of_error (run_ensureOpen_of_closed hclosed w), Except.map]
  | false =>
    simp only [run_runStaged hclosed]
    cases current k c with
    | error e => rfl
    | ok v =>
      simp only [StagedEntry.run_map]
      rfl

theorem invokeRaw_staged (k : κ) (p : Processor α β) (s : Cache ω κ α × ω) :
    invokeRaw k p s =
      match (runStaged k p).run s with
      | (.error e, t) => (⟨.error e, []⟩, t)
      | (.ok (.error e, _), t) => (⟨.error e, [.error e]⟩, t)
      | (.ok (.ok b, staged), t) => (⟨((commit k staged).run t).1, [.ok b]⟩,
          ((commit k staged).run t).2) := rfl

theorem run_invoke_staged (k : κ) (p : Processor α β) (s : Cache ω κ α × ω) :
    (invoke k p).run s =
      match (runStaged k p).run s with
      | (.error e, t) => (.error e, t)
      | (.ok (.error e, _), t) => (.error (e.attributeTo .processor), t)
      | (.ok (.ok b, staged), t) => (commit k staged >>= fun _ => pure b : Op ω κ α β).run t := by
  let f : Except Error β → Except Error β := (·.mapError (·.attributeTo .processor))
  change ((invokeRaw k (p.map f) s).1.conclude s.1.name, (invokeRaw k (p.map f) s).2) = _
  rw [invokeRaw_staged, run_runStaged_map]
  rcases (runStaged k p).run s with ⟨e | ⟨e | b, staged⟩, t⟩
  · rfl
  · rfl
  · change ((RawRun.mk ((commit k staged).run t).1 [.ok b]).conclude s.1.name,
      ((commit k staged).run t).2) =
      (commit k staged >>= fun _ => (pure b : Op ω κ α β)).run t
    rw [Action.run_bind]
    rcases (commit k staged).run t with ⟨e | x, u⟩ <;> rfl

theorem invoke_eq_bind (k : κ) (p : Processor α β) :
    (invoke k p : Op ω κ α β) = runStaged k p >>= fun x =>
      match x.1 with
      | .error e => .fail (e.attributeTo .processor)
      | .ok b => commit k x.2 >>= fun _ => pure b := by
  funext s
  change (invoke k p).run s = (runStaged k p >>= _).run s
  rw [run_invoke_staged, Action.run_bind]
  rcases (runStaged k p).run s with ⟨e | ⟨e | b, staged⟩, t⟩ <;> rfl

theorem run_invoke {c : Cache ω κ α} (h : c.closed = false) (k : κ) (p : Processor α β) (w : ω) :
    (invoke k p).run (c, w) =
      match current k c with
      | .error e => (.error e, (c, w))
      | .ok v =>
        match StagedEntry.run (loading k c) p (.ofCurrent v) w with
        | (.error e, _, w₁) => (.error (e.attributeTo .processor), (c, w₁))
        | (.ok b, staged, w₁) => (commit k staged >>= fun _ => pure b : Op ω κ α β).run
            (c, w₁) := by
  rw [run_invoke_staged, run_runStaged h]
  cases current k c with
  | error e => rfl
  | ok v =>
    dsimp only
    rcases StagedEntry.run (loading k c) p (.ofCurrent v) w with ⟨e | b, staged, w₁⟩ <;> rfl

section Staged

variable {k : κ} {p : Processor α β} {c : Cache ω κ α} {w w₁ : ω} {v : Option α}
  {staged : StagedEntry α} {b : β}
  {e : Error}

theorem run_invoke_of_failed (h : c.closed = false) (hv : current k c = .ok v)
    (hrun : StagedEntry.run (loading k c) p (.ofCurrent v) w = (.error e, staged, w₁)) :
    (invoke k p).run (c, w) = (.error (e.attributeTo .processor), (c, w₁)) := by
  rw [run_invoke h, hv]
  simp only [hrun]

theorem run_invoke_of_ended (h : c.closed = false) (hv : current k c = .ok v)
    (hrun : StagedEntry.run (loading k c) p (.ofCurrent v) w = (.ok b, staged, w₁)) :
    (invoke k p).run (c, w) =
      (((commit k staged).run (c, w₁)).1.map fun _ => b, ((commit k staged).run (c, w₁)).2) := by
  rw [run_invoke h, hv]
  simp only [hrun, Action.run_bind_pure]

theorem run_commit_of_error (h : staged.outcome = .error e) (s : Cache ω κ α × ω) :
    (commit k staged).run s = (.error e, s) := by
  rw [commit, h]
  rfl

end Staged

end EntryCache.Cache

import EntryCache.Proofs.Plain.Access

namespace EntryCache

variable {ω κ α β : Type} [DecidableEq κ]

namespace Table

def putAll (m : Table κ α) (es : List (κ × α)) : Table κ α := es.foldl (fun m p => m.put p.1 p.2) m

def removeAll (m : Table κ α) (ks : List κ) : Table κ α := fun k => if k ∈ ks then none else m k

def gather (m : Table κ α) (found : FiniteMap κ α) : List κ → FiniteMap κ α
  | [] => found
  | k :: ks =>
    match m k with
    | some v => m.gather (found.insert k v) ks
    | none => m.gather found ks

theorem get?_gather (m : Table κ α) (found : FiniteMap κ α) (ks : List κ) (j : κ) :
    (m.gather found ks).get? j = if j ∈ ks then (m j).or (found.get? j) else found.get? j := by
  induction ks generalizing found with
  | nil => simp [gather]
  | cons k ks ih =>
    cases hk : m k with
    | none =>
      simp only [gather, hk, ih, List.mem_cons]
      by_cases hj : j = k <;> simp [hj, hk]
    | some v =>
      simp only [gather, hk, ih, List.mem_cons]
      by_cases hj : j = k
      · simp [hj, hk]
      · simp [hj, FiniteMap.get?_insert_of_ne (Ne.symm hj)]

def invoke (m : Table κ α) (k : κ) (p : Processor α β) : Except Error β × Table κ α :=
  match p.onCell (m k) with
  | (.ok b, v) => (.ok b, Function.update m k v)
  | (.error e, _) => (.error (e.attributeTo .processor), m)

def invokeRaw (m : Table κ α) (k : κ) (p : Processor α β) : RawRun β × Table κ α :=
  match p.onCell (m k) with
  | (.ok b, v) => (⟨.ok (), [.ok b]⟩, Function.update m k v)
  | (.error e, _) => (⟨.error e, [.error e]⟩, m)

def invokeAll (m : Table κ α) (p : κ → Processor α β) :
    List κ → List (κ × Except Error β) × Table κ α
  | [] => ([], m)
  | k :: ks =>
    let (r, m) := m.invoke k (p k)
    let (rs, m) := m.invokeAll p ks
    ((k, r) :: rs, m)

end Table

namespace Cache.Plain

variable {P : α → Prop} {m : Table κ α} {c : Cache ω κ α} {w : ω}

theorem putEach (h : c.Plain P m) {es : List (κ × α)} (hes : ∀ p ∈ es, P p.2) :
    Gives P (c, w) (Action.forEach (fun p => discard (Cache.storeValue p.1 p.2)) es) (.ok ())
      (m.putAll es, w) := by
  induction es generalizing c m with
  | nil => exact h.pure ()
  | cons p es ih =>
    refine ((h.storeValue p.1 (hes p List.mem_cons_self)).map _).bind fun _ hc => ?_
    exact ih hc fun q hq => hes q (List.mem_cons_of_mem _ hq)

theorem removeEach (h : c.Plain P m) (ks : List κ) :
    Gives P (c, w) (Action.forEach (fun k => discard (Cache.deleteValue k)) ks) (.ok ())
      (m.removeAll ks, w) := by
  induction ks generalizing c m with
  | nil =>
    have hsame : m.removeAll [] = m := by
      funext k
      simp [Table.removeAll]
    rw [hsame]
    exact h.pure ()
  | cons k ks ih =>
    refine ((h.deleteValue k).map _).bind fun _ hc => ?_
    have hcons : m.removeAll (k :: ks) = (m.remove k).removeAll ks := by
      funext j
      by_cases hj : j = k <;> simp [Table.removeAll, Table.remove, hj]
    rw [hcons]
    exact ih hc

theorem putAll (h : c.Plain P m) {es : List (κ × α)} (hes : ∀ p ∈ es, P p.2) :
    Gives P (c, w) (putAll es) (.ok ()) (m.putAll es, w) := h.open_bind (h.putEach hes)

theorem removeKeys (h : c.Plain P m) (ks : List κ) :
    Gives P (c, w) (removeKeys ks) (.ok ()) (m.removeAll ks, w) := h.open_bind (h.removeEach ks)

theorem getEach (h : c.Plain P m) (found : FiniteMap κ α) (ks : List κ) :
    Gives P (c, w) (getEach found ks) (.ok (m.gather found ks)) (m, w) := by
  induction ks generalizing c found with
  | nil => exact h.pure found
  | cons k ks ih =>
    refine (h.get k).bind fun _ hc => ?_
    rw [Table.gather]
    cases m k with
    | none => exact ih hc found
    | some v => exact ih hc (found.insert k v)

theorem collectEntries (h : c.Plain P m) {es : List (κ × α)} (hes : ∀ p ∈ es, P p.2) :
    Gives P (c, w) (collect entryOf es) (.ok es) (m, w) := by
  induction es generalizing c with
  | nil => exact h.pure []
  | cons p es ih =>
    have hcopy := h.run_copied (hes p List.mem_cons_self) w
    have hentry : Gives P (c, w) (entryOf p) (.ok p) (m, w) := .after hcopy (h.pure p)
    refine hentry.bind fun _ hc => ?_
    exact (ih hc fun q hq => hes q (List.mem_cons_of_mem _ hq)).bind fun _ hc => hc.pure _

theorem listEntries (h : c.Plain P m) :
    Gives P (c, w) listEntries (.ok c.entries.toList) (m, w) := by
  apply h.open_bind
  apply Gives.after (run_look _ _)
  apply h.collectEntries
  intro p hp
  exact h.holds p.1 p.2 ((h.get? p.1).symm.trans (FiniteMap.mem_toList_iff.1 hp))

theorem removeAll (h : c.Plain P m) : Gives P (c, w) removeAll (.ok ()) (fun _ => none, w) := by
  apply h.open_bind
  apply Gives.after (run_look _ _)
  -- What is not among the keys is not mapped anyway.
  have hnone : m.removeAll c.entries.keys = fun _ => none := by
    funext k
    rw [Table.removeAll, ← h.get?]
    split
    · rfl
    · next hk => exact FiniteMap.get?_eq_none.2 hk
  rw [← hnone]
  exact h.removeEach _

theorem clear (h : c.Plain P m) : Gives P (c, w) clear (.ok ()) (fun _ => none, w) := by
  apply h.open_bind
  exact ⟨_, run_update .., h.opened, h.loader, h.writer, h.listeners, h.copies, rfl, nofun⟩

theorem loadAll (h : c.Plain P m) (ks : List κ) (replaceExisting : Bool)
    (listener : Option (CompletionListener ω)) :
    Gives P (c, w) (loadAll ks replaceExisting listener)
      ((onSome listener (·.onCompletion)).run w).1
      (m, ((onSome listener (·.onCompletion)).run w).2) := by
  apply h.open_bind
  have hload : (loadInto ks replaceExisting).attempt.run (c, w) = (.ok (.ok ()), (c, w)) := by
    rw [Action.run_attempt, loadInto, Action.run_bind_of_ok (run_look _ _)]
    simp only [h.loader]
    rfl
  exact .after hload ⟨c, rfl, h⟩

theorem deregisterListener (h : c.Plain P m) (handle : ListenerHandle) :
    Gives P (c, w) (deregisterListener handle) (.ok ()) (m, w) := by
  apply h.open_bind
  refine ⟨_, run_update .., h.opened, h.loader, h.writer, ?_, h.copies, h.mapped, h.holds⟩
  simp [h.listeners]

theorem apply (h : c.Plain P m) (k : κ) (o : Outcome α) (ho : ∀ v ∈ o.commit (m k), P v) :
    Gives P (c, w) (apply k o) (.ok ()) (Function.update m k (o.commit (m k)), w) := by
  cases o with
  | nothing =>
    rw [Outcome.commit, Function.update_eq_self]
    exact h.pure ()
  | accessed =>
    rw [Outcome.commit, Function.update_eq_self]
    exact ⟨_, rfl, h.count _⟩
  | loaded v => exact (h.storeValue k (ho v rfl)).map _
  | created v => exact (h.storeValue k (ho v rfl)).map _
  | updated v => exact (h.storeValue k (ho v rfl)).map _
  | removed => exact (h.deleteValue k).map _

theorem runStaged (h : c.Plain P m) (k : κ) (p : Processor α β) (w : ω) :
    ∃ staged, (runStaged k p).run (c, w) = (.ok ((p.onCell (m k)).1, staged), (c, w)) ∧
      staged.value = (p.onCell (m k)).2 ∧ staged.loadError = none ∧ staged.Consistent (m k) := by
  have hcurrent : current k c = .ok (m k) := by
    rw [current, h.get?]
    cases hk : m k with
    | none => rfl
    | some v =>
      simp only [h.copies v (h.holds k v hk)]
      rfl
  have hloading : loading k c = none := by
    rw [loading, h.loader?]
    rfl
  obtain ⟨staged, hrun, hv, he, hs⟩ :=
    StagedEntry.run_no_load (StagedEntry.consistent_ofCurrent (m k)) p w
  refine ⟨staged, ?_, hv, he, hs⟩
  rw [run_runStaged h.opened, hcurrent, hloading]
  simp only [hrun]
  rfl

theorem invokeRaw (h : c.Plain P m) (k : κ) {p : Processor α β} (hp : p.Brings P) :
    ∃ c', invokeRaw k p (c, w) = ((m.invokeRaw k p).1, (c', w)) ∧
      c'.Plain P (m.invokeRaw k p).2 := by
  obtain ⟨staged, hrun, hv, he, hs⟩ := h.runStaged k p w
  obtain ⟨o, ho, hcommit, -⟩ := hs.outcome he
  change Cache.runStaged k p (c, w) = _ at hrun
  have hholds := hp.onCell (h.holds k)
  rw [Cache.invokeRaw, Table.invokeRaw, hrun]
  cases hcell : p.onCell (m k) with
  | mk r v =>
    rw [hcell] at hv hholds
    have hv' : o.commit (m k) = v := hcommit.trans hv
    cases r with
    | error e => exact ⟨c, rfl, h⟩
    | ok b =>
      obtain ⟨c', happly, hc'⟩ := h.apply (w := w) k o (by rwa [hv'])
      have hcommitted : commit k staged (c, w) = (.ok (), (c', w)) := by
        change (commit k staged).run (c, w) = _
        rw [commit, ho]
        exact happly
      rw [hv'] at hc'
      simp only [hcommitted]
      exact ⟨c', rfl, hc'⟩

theorem invoke (h : c.Plain P m) (k : κ) {p : Processor α β} (hp : p.Brings P) :
    Gives P (c, w) (invokeAround id k p) (m.invoke k p).1 ((m.invoke k p).2, w) := by
  obtain ⟨c', hrun, hc'⟩ := h.invokeRaw (w := w) k (hp.map (·.mapError (·.attributeTo .processor)))
  refine ⟨c', ?_, ?_⟩
  · change (RawRun.conclude c.name (Cache.invokeRaw k _ (c, w)).1, (Cache.invokeRaw k _ (c, w)).2) =
      _
    rw [hrun, Table.invokeRaw, Table.invoke, Processor.onCell_map]
    cases p.onCell (m k) with
    | mk r v => cases r <;> rfl
  · rw [Table.invokeRaw, Processor.onCell_map] at hc'
    rw [Table.invoke]
    cases hcell : p.onCell (m k) with
    | mk r v =>
      rw [hcell] at hc'
      cases r <;> exact hc'

theorem invokeAll (h : c.Plain P m) {p : κ → Processor α β} {ks : List κ}
    (hp : ∀ k ∈ ks, (p k).Brings P) :
    ∃ c', resultsOf (fun k => invokeAround id k (p k)) ks (c, w) = ((m.invokeAll p ks).1, (c', w)) ∧
      c'.Plain P (m.invokeAll p ks).2 := by
  induction ks generalizing c m with
  | nil => exact ⟨c, rfl, h⟩
  | cons k ks ih =>
    obtain ⟨c₁, hrun, hc₁⟩ := h.invoke (w := w) k (hp k List.mem_cons_self)
    obtain ⟨c', hrest, hc'⟩ := ih hc₁ fun j hj => hp j (List.mem_cons_of_mem _ hj)
    refine ⟨c', ?_, hc'⟩
    change invokeAround id k (p k) (c, w) = _ at hrun
    simp only [resultsOf, hrun, hrest, Table.invokeAll]

end Cache.Plain

end EntryCache

import EntryCache.Proofs.Backing.Processors
import EntryCache.Proofs.Cache.Recording
import EntryCache.Proofs.Staging.Reading

namespace EntryCache.Cache

variable {ω κ α β ρ : Type} [DecidableEq κ] {c : Cache ω κ α} {k : κ} {w : ω}

theorem run_apply_loaded (k : κ) (v : α) (s : Cache ω κ α × ω) :
    (apply k (.loaded v)).run s = (((storeValue k v).run s).1.map fun _ => (),
      ((storeValue k v).run s).2) :=
  Action.run_discard ..

theorem apply_loaded_of_ok {v : α} {t : Cache ω κ α × ω}
    (h : (apply k (.loaded v)).run (c, w) = (.ok (), t)) :
    ∃ u w₁, c.copy v = .ok u ∧ (writeThrough k v).run (c, w) = (.ok (), (c, w₁)) ∧
      t = ((tellStored k v (c.entries.get? k)).run ((c.enter k u).countPut, w₁)).2 := by
  rw [run_apply_loaded] at h
  cases hwrite : (writeThrough k v).run (c, w) with
  | mk r s =>
    have hs : s = (c, s.2) := congrArg (·.2.1, s.2) hwrite.symm
    rw [hs] at hwrite
    cases r with
    | error e =>
      rw [run_storeValue_of_refused hwrite] at h
      cases h
    | ok y =>
      cases hcopy : c.copy v with
      | error e =>
        rw [run_storeValue_of_no_copy hwrite hcopy] at h
        cases h
      | ok u =>
        rw [run_storeValue_of_written hwrite hcopy, Action.snd_run_bind_pure] at h
        exact ⟨u, s.2, rfl, by rw [← hs], (congrArg Prod.snd h).symm⟩

theorem run_processorCalls {p : Processor α β} {v : Option α} (hv : current k c = .ok v) :
    (StagedEntry.run (loading k c) p (.ofCurrent v) w).2 =
      (Call.answerAll (StagedEntry.answer (loading k c)) (processorCalls k p (c, w))
        (.ofCurrent v, w)).2 := by
  simp only [processorCalls, hv, StagedEntry.run_calls]

theorem run_leaves {f : ω → ρ} (h : ∀ l ∈ c.loader?, ∀ k, (l.load k).Leaves f) (p : Processor α β)
    (v : Option α) : f (StagedEntry.run (loading k c) p (.ofCurrent v) w).2.2 = f w := by
  refine StagedEntry.keeps_run (I := fun w' => f w' = f w) ?_ p _ rfl
  intro load hload
  obtain ⟨l, hl, rfl⟩ := Option.map_eq_some_iff.1 hload
  exact (h l hl k).keeps (· = f w)

theorem invoke_of_ok {p : Processor α β} {b : β} (h : c.closed = false)
    (hb : ((invoke k p).run (c, w)).1 = .ok b) :
    ∃ v o, current k c = .ok v ∧
      let staged := (StagedEntry.run (loading k c) p (.ofCurrent v) w).2
      staged.1.outcome = .ok o ∧ (apply k o).run (c, staged.2) =
        (.ok (), ((invoke k p).run (c, w)).2) := by
  rw [run_invoke h] at hb ⊢
  cases hv : current k c with
  | error e => rw [hv] at hb; cases hb
  | ok v =>
    simp only [hv] at hb ⊢
    refine ⟨v, ?_⟩
    cases hrun : StagedEntry.run (loading k c) p (.ofCurrent v) w with
    | mk r t =>
      simp only [hrun] at hb ⊢
      cases r with
      | error e => cases hb
      | ok b' =>
        cases ho : t.1.outcome with
        | error e =>
          simp only [commit, ho] at hb
          cases hb
        | ok o =>
          refine ⟨o, trivial, rfl, ?_⟩
          have hcommit : (commit k t.1).run (c, t.2) = (apply k o).run (c, t.2) := by
            rw [commit, ho, Action.run_bind_of_ok (Action.run_ofExcept _ _)]
          simp only [Action.run_bind, hcommit] at hb ⊢
          cases happly : (apply k o).run (c, t.2) with
          | mk r s =>
            cases r with
            | error e =>
              rw [happly] at hb
              cases hb
            | ok x => rfl

theorem invoke_of_unmapped {p : Processor α β} {b : β} (h : c.closed = false)
    (hk : c.entries.get? k = none) (hb : ((invoke k p).run (c, w)).1 = .ok b) :
    ∃ o, let staged := (StagedEntry.run (loading k c) p (.ofCurrent none) w).2
      staged = (Call.answerAll (StagedEntry.answer (loading k c)) (processorCalls k p (c, w))
        (.ofCurrent none, w)).2 ∧
        staged.1.outcome = .ok o ∧ (apply k o).run (c, staged.2) =
          (.ok (), ((invoke k p).run (c, w)).2) := by
  have hcurrent : current k c = .ok none := by rw [current, hk]
  obtain ⟨v, o, hv, hrun⟩ := invoke_of_ok h hb
  cases hcurrent.symm.trans hv
  exact ⟨o, run_processorCalls hcurrent, hrun⟩

section Unmapped

variable (h : c.closed = false) (hk : c.entries.get? k = none) {l : Loader ω κ α}
  (hl : c.loader? = some l)
include h hk hl

theorem run_get_through : (get k).run (c, w) = (readThrough k l).run (c.countMiss, w) := by
  rw [run_get_of_unmapped h hk, hl]

theorem get_of_load_none {w₁ : ω} (hload : (l.load k).run w = (.ok none, w₁)) :
    (get k).run (c, w) = (.ok none, (c.countMiss, w₁)) :=
  (run_get_through h hk hl).trans (run_readThrough_of_none hload)

theorem get_of_load_some {u : α} {w₁ : ω} (hload : (l.load k).run w = (.ok (some u), w₁))
    {v : Option α} (hv : ((get k).run (c, w)).1 = .ok v) : v = some u ∧ ∃ u', c.copy u = .ok u' ∧
      ((get k).run (c, w)).2 = (c.countMiss.enter k u',
        ((notify .created k (some u) none).run (c, w₁)).2.2) := by
  rw [run_get_through h hk hl] at hv ⊢
  cases hcopy : c.copy u with
  | error e =>
    rw [run_readThrough_of_no_copy (c := c.countMiss) hload hcopy] at hv
    cases hv
  | ok u' =>
    rw [run_readThrough_of_some (c := c.countMiss) hload hcopy] at hv ⊢
    rw [Action.run_bind] at hv
    refine ⟨?_, u', rfl, Action.snd_run_bind_pure ..⟩
    cases hnotify : (notify .created k (some u) none).run (c.countMiss.enter k u', w₁) with
    | mk r t =>
      rw [hnotify] at hv
      cases r with
      | error e => cases hv
      | ok x => exact (Except.ok.inj hv).symm

end Unmapped

variable {calls : ω → List (WriterCall κ α)} {seen : ω → ρ}

structure OnRecord (calls : ω → List (WriterCall κ α)) (seen : ω → ρ) (c : Cache ω κ α) : Prop where
  opened : c.closed = false
  writer : ∀ wr ∈ c.writer?, wr.Records calls
  listeners : ∀ r ∈ c.listeners, r.Leaves calls
  loads : ∀ l ∈ c.loader?, ∀ k, (l.load k).Leaves calls
  unseen : ∀ l ∈ c.loader?, ∀ k, (l.load k).Leaves seen

/-- The writer is not asked, and all that is left is left by a look-up as well. -/
structure LikeGet (calls : ω → List (WriterCall κ α)) (seen : ω → ρ) (w : ω)
    (got invoked : Cache ω κ α × ω) : Prop where
  unasked : calls invoked.2 = calls w
  asked : calls invoked.2 = calls got.2
  entries : invoked.1.entries.get? = got.1.entries.get?
  seen : seen invoked.2 = seen got.2

theorem LikeGet.of_kept {got invoked : Cache ω κ α × ω} (hg : got.1.entries = c.entries)
    (hi : invoked.1.entries = c.entries) (hgc : calls got.2 = calls w)
    (hic : calls invoked.2 = calls w) (hgs : seen got.2 = seen w) (his : seen invoked.2 = seen w) :
    LikeGet calls seen w got invoked :=
  ⟨hic, hic.trans hgc.symm, by rw [hg, hi], his.trans hgs.symm⟩

section Agreement

variable {p : Processor α β} {b : β} (h : c.OnRecord calls seen)
  (hreads : Call.Reads (processorCalls k p (c, w))) (hb : ((invoke k p).run (c, w)).1 = .ok b)
include h hreads hb

theorem likeGet_of_mapped (hvalue : .value ∈ processorCalls k p (c, w)) {u : α}
    (hk : c.entries.get? k = some u) :
    LikeGet calls seen w ((get k).run (c, w)).2 ((invoke k p).run (c, w)).2 := by
  obtain ⟨v', o, hv', ho, happly⟩ := invoke_of_ok h.opened hb
  obtain ⟨n, hgot⟩ := run_get_of_mapped h.opened hk w
  rw [run_processorCalls hv'] at ho happly
  cases v' with
  | none =>
    have hsome := isSome_of_current hv'
    rw [hk] at hsome
    cases hsome
  | some u' =>
    rw [StagedEntry.answerAll_reads_of_some hreads hvalue rfl rfl w] at ho happly
    cases ho
    have hinvoked : ((invoke k p).run (c, w)).2 = (c.countHit, w) := (congrArg Prod.snd happly).symm
    rw [hgot, hinvoked]
    exact .of_kept rfl rfl rfl rfl rfl rfl

theorem likeGet_of_unbacked (hk : c.entries.get? k = none) (hl : c.loader? = none) :
    LikeGet calls seen w ((get k).run (c, w)).2 ((invoke k p).run (c, w)).2 := by
  obtain ⟨o, hcalls, ho, happly⟩ := invoke_of_unmapped h.opened hk hb
  have hloading : loading k c = none := by rw [loading, hl]; rfl
  rw [hcalls, hloading, StagedEntry.answerAll_reads_without_load hreads rfl w] at ho happly
  cases ho
  have hinvoked : ((invoke k p).run (c, w)).2 = (c, w) := (congrArg Prod.snd happly).symm
  rw [run_get_of_unmapped h.opened hk, hl, hinvoked]
  exact .of_kept rfl rfl rfl rfl rfl rfl

section Loader

variable (hk : c.entries.get? k = none) {l : Loader ω κ α} (hl : c.loader? = some l) {w₁ : ω}
include hk hl

theorem likeGet_of_unloaded (hload : (l.load k).run w = (.ok none, w₁)) :
    LikeGet calls seen w ((get k).run (c, w)).2 ((invoke k p).run (c, w)).2 ↔
      Call.anyLoaded (l.load k) (processorCalls k p (c, w)) w = false := by
  obtain ⟨o, hcalls, ho, happly⟩ := invoke_of_unmapped h.opened hk hb
  have hasked := run_leaves h.loads p none (k := k) (w := w)
  have hseen := run_leaves h.unseen p none (k := k) (w := w)
  have hloading : loading k c = some (l.load k) := by rw [loading, hl]; rfl
  rw [get_of_load_none h.opened hk hl hload]
  -- The first read has no value, and a later one has one only if the loader has changed its mind.
  generalize (StagedEntry.run (loading k c) p (.ofCurrent none) w).2 =
    staged at hcalls ho happly hasked hseen
  rw [hloading] at hcalls
  have he := StagedEntry.loadError_of_outcome ho
  rw [hcalls] at he
  obtain ⟨x, hx, hany⟩ := StagedEntry.answerAll_reads_of_load hreads rfl rfl w he
  rw [← hcalls] at hx
  rw [hx] at ho
  rw [← hany]
  cases x with
  | none =>
    cases ho
    have hinvoked : ((invoke k p).run (c, w)).2 = (c, staged.2) := (congrArg Prod.snd happly).symm
    have hw₁ : ∀ {τ : Type} {f : ω → τ}, (l.load k).Leaves f → f w₁ = f w := fun hf => by
      rw [← hf w, hload]
    rw [hinvoked]
    exact iff_of_true (.of_kept rfl rfl (hw₁ (h.loads l hl k)) hasked (hw₁ (h.unseen l hl k)) hseen)
      rfl
  | some u =>
    cases ho
    obtain ⟨u', w₂, -, -, ht⟩ := apply_loaded_of_ok happly
    refine iff_of_false (fun hlike => ?_) nofun
    have hentry := congrFun hlike.entries k
    rw [ht, tellStored_cache] at hentry
    exact nomatch hk.symm.trans (hentry.symm.trans (FiniteMap.get?_insert_self ..))

theorem likeGet_of_loaded (hvalue : .value ∈ processorCalls k p (c, w)) {v : Option α}
    (hget : ((get k).run (c, w)).1 = .ok v) {u : α}
    (hload : (l.load k).run w = (.ok (some u), w₁)) :
    LikeGet calls seen w ((get k).run (c, w)).2 ((invoke k p).run (c, w)).2 ↔ c.writer? = none := by
  obtain ⟨o, hcalls, ho, happly⟩ := invoke_of_unmapped h.opened hk hb
  have hloading : loading k c = some (l.load k) := by rw [loading, hl]; rfl
  rw [hcalls, hloading,
    StagedEntry.answerAll_reads_of_load_some (l := l.load k) hreads hvalue rfl rfl
      hload] at ho happly
  cases ho
  -- Both have the value from the same answer of the loader; only the commit goes by the writer.
  change (apply k (.loaded u)).run (c, w₁) = _ at happly
  have hw₁ : calls w₁ = calls w := by rw [← h.loads l hl k w, hload]
  obtain ⟨-, u', hcopy, hgot⟩ := get_of_load_some h.opened hk hl hload hget
  cases hwr : c.writer? with
  | none =>
    obtain ⟨u'', w₂, hcopy', hwrite, ht⟩ := apply_loaded_of_ok happly
    cases hcopy.symm.trans hcopy'
    rw [run_writeThrough, hwr] at hwrite
    cases hwrite
    rw [hk] at ht
    rw [hgot, ht]
    exact iff_of_true ⟨(notify_leaves h.listeners ..).trans hw₁, rfl, rfl, rfl⟩ rfl
  | some wr =>
    rw [run_apply_loaded] at happly
    have hwritten := storeValue_calls hwr (h.writer wr hwr) h.listeners k u w₁
    rw [congrArg Prod.snd happly, hw₁] at hwritten
    refine iff_of_false (fun hlike => ?_) nofun
    exact nomatch List.self_eq_append_right.1 (hlike.unasked.symm.trans hwritten)

end Loader

end Agreement

/-- A processor that only reads, and does read the value, is a look-up, unless the loader has a
value for one of its reads: then no writer may be there to be asked, and the loader must have had
the value at the first read. -/
theorem invoke_reads_iff (h : c.OnRecord calls seen) {p : Processor α β} {v : Option α} {b : β}
    (hreads : ∀ call ∈ processorCalls k p (c, w), call.isRead)
    (hvalue : .value ∈ processorCalls k p (c, w))
    (hget : ((get k).run (c, w)).1 = .ok v) (hb : ((invoke k p).run (c, w)).1 = .ok b) :
    LikeGet calls seen w ((get k).run (c, w)).2 ((invoke k p).run (c, w)).2 ↔
      ∀ l ∈ c.loader?, c.entries.get? k = none →
        Call.anyLoaded (l.load k) (processorCalls k p (c, w)) w →
        c.writer? = none ∧ v.isSome := by
  have hreads := Call.Reads.of_isRead hreads
  cases hk : c.entries.get? k with
  | some u => exact iff_of_true (likeGet_of_mapped h hreads hb hvalue hk) fun _ _ => nofun
  | none =>
    cases hl : c.loader? with
    | none => exact iff_of_true (likeGet_of_unbacked h hreads hb hk hl) nofun
    | some l =>
      cases hload : (l.load k).run w with
      | mk r w₁ =>
        match r with
        | .error e =>
          rw [run_get_through h.opened hk hl, run_readThrough_of_failed hload] at hget
          cases hget
        | .ok none =>
          rw [likeGet_of_unloaded h hreads hb hk hl hload]
          rw [get_of_load_none h.opened hk hl hload] at hget
          cases hget
          simp
        | .ok (some u) =>
          rw [likeGet_of_loaded h hreads hb hk hl hvalue hget hload]
          have hv := (get_of_load_some h.opened hk hl hload hget).1
          simp [hv, hreads.anyLoaded (l := l.load k) hvalue hload]

theorem onRecord_notes (load : κ → Option α) (writeThrough : Bool) :
    (create "c" (Notes.configuration load writeThrough []) .ok {}).1.OnRecord Notes.calls
      Notes.events where
  opened := rfl
  writer wr hwr := by
    cases writer_of_writer? hwr
    exact Notes.writer_records
  listeners r hr := by
    cases List.mem_singleton.1 hr
    refine ⟨fun t es => ?_, fun _ => nofun⟩
    change (Notes.listener.dispatch t es).Leaves _
    rw [Notes.listener_dispatch]
    exact fun _ => rfl
  loads l hl k := by
    cases hl
    exact fun _ => rfl
  unseen l hl k := by
    cases hl
    exact fun _ => rfl

theorem invoke_reads_iff_unwritten :
    let s := create "c" (Notes.configuration (some : Nat → Option Nat) false []) .ok {}
    let p : Processor Nat Unit := .value fun _ => .present fun _ => .done (.ok ())
    s.1.entries.get? 1 = none ∧ processorCalls 1 p s = [.value, .present] ∧
      LikeGet Notes.calls Notes.events s.2 ((get 1).run s).2 ((invoke 1 p).run s).2 := by
  intro s p
  refine ⟨rfl, rfl, (invoke_reads_iff (v := some 1) (b := ()) (w := s.2) (onRecord_notes some false)
    ?_ ?_ rfl rfl).2 ?_⟩
  · decide
  · decide
  · intro l _ _ _
    exact ⟨rfl, rfl⟩

/-- The writer is asked to write what the loader has. -/
theorem invoke_value_writes_loaded :
    let s := create "c" (Notes.configuration (some : Nat → Option Nat) true []) .ok {}
    let p : Processor Nat (Option Nat) := .readValue
    s.1.OnRecord Notes.calls Notes.events ∧ processorCalls 1 p s = [.value] ∧
      ((get 1).run s).1 = .ok (some 1) ∧ ((invoke 1 p).run s).1 = .ok (some 1) ∧
      ¬LikeGet Notes.calls Notes.events s.2 ((get 1).run s).2 ((invoke 1 p).run s).2 := by
  intro s p
  refine ⟨onRecord_notes some true, rfl, rfl, rfl, fun h => ?_⟩
  exact nomatch h.unasked

end EntryCache.Cache

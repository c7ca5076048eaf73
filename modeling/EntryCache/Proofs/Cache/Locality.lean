import EntryCache.Proofs.Cache.Changes
import EntryCache.Proofs.FiniteMap
import EntryCache.Proofs.Staging.Consistency
import Mathlib.Tactic.Choose

namespace EntryCache

variable {σ ω κ α β γ δ : Type}

/-- A step that ends alike whatever has happened before. -/
def Action.Memoryless (a : Action σ γ) : Prop := ∃ r, ∀ s, (a.run s).1 = r

namespace Action.Memoryless

theorem pure (x : γ) : (pure x : Action σ γ).Memoryless := ⟨.ok x, fun _ => rfl⟩

theorem mapError {a : Action σ γ} (h : a.Memoryless) (f : Error → Error) :
    (a.mapError f).Memoryless := by
  obtain ⟨r, hr⟩ := h
  exact ⟨r.mapError f, fun s => by rw [Action.run_mapError, hr]⟩

end Action.Memoryless

inductive Counter : Type
  | hits
  | puts
  | removals

namespace Counter

def count : Option Counter → Statistics → Statistics
  | none, n => n
  | some .hits, n => n.recordHits 1
  | some .puts, n => n.recordPuts 1
  | some .removals, n => n.recordRemovals 1

theorem count_comm (i j : Option Counter) (n : Statistics) :
    count i (count j n) = count j (count i n) := by
  rcases i with _ | _ | _ | _ <;> rcases j with _ | _ | _ | _ <;> rfl

end Counter

namespace StagedEntry

variable {load : Option (Action ω (Option α))}

theorem read_memoryless (h : ∀ l ∈ load, l.Memoryless) (s : StagedEntry α) :
    ∃ v s', ∀ w, ∃ w', s.read load w = (v, s', w') := by
  by_cases hs : s.stage = .untouched
  · cases hv : s.value with
    | some v => exact ⟨_, _, fun w => ⟨w, read_of_some hs hv w⟩⟩
    | none =>
      cases load with
      | none => exact ⟨_, _, fun w => ⟨w, read_without_load hv w⟩⟩
      | some l =>
        obtain ⟨r, hr⟩ := h l rfl
        refine ⟨(s.absorb r).value, s.absorb r, fun w => ⟨(l w).2, ?_⟩⟩
        rw [read_of_load hs hv, ← hr w]
        rfl
  · exact ⟨_, _, fun w => ⟨w, read_of_ne hs w⟩⟩

theorem run_memoryless (h : ∀ l ∈ load, l.Memoryless) (p : Processor α β) (s : StagedEntry α) :
    ∃ r s', ∀ w, ∃ w', run load p s w = (r, s', w') := by
  induction p generalizing s with
  | done r => exact ⟨r, s, fun w => ⟨w, rfl⟩⟩
  | value next ih =>
    obtain ⟨v, s₁, hread⟩ := read_memoryless h s
    obtain ⟨r, s₂, hrun⟩ := ih v s₁
    refine ⟨r, s₂, fun w => ?_⟩
    obtain ⟨w₁, hw₁⟩ := hread w
    obtain ⟨w₂, hw₂⟩ := hrun w₁
    exact ⟨w₂, by rw [run, hw₁]; exact hw₂⟩
  | present next ih => exact ih ..
  | set v next ih => exact ih ..
  | remove next ih => exact ih ..

end StagedEntry

variable [DecidableEq κ]

structure Effect (α γ : Type) : Type where
  result : Except Error γ
  entry : Option α
  counter : Option Counter

namespace Cache

def carrying (c : Cache ω κ α) (es : FiniteMap κ α) (n : Statistics) : Cache ω κ α :=
  { c with entries := es, stats := n }

/-- Loader and writer of a cache have no memory, as far as they are used, and nobody listens to
it. -/
structure Memoryless (c : Cache ω κ α) : Prop where
  loads : ∀ l ∈ c.loader?, ∀ k, (l.load k).Memoryless
  writes : ∀ wr ∈ c.writer?, ∀ k v, (wr.write k v).Memoryless
  deletes : ∀ wr ∈ c.writer?, ∀ k, (wr.delete k).Memoryless
  unheard : c.listeners = []

def Op.Has (k : κ) (c : Cache ω κ α) (E : Effect α γ) (op : Op ω κ α γ) : Prop :=
  ∀ es n w, es.get? k = c.entries.get? k → ∃ es' w',
    op.run (c.carrying es n, w) =
      (E.result, (c.carrying es' (Counter.count E.counter n), w')) ∧
    es'.get? = Function.update es.get? k E.entry

namespace Op.Has

variable {c : Cache ω κ α} {k : κ} {v : α} {E : Effect α γ} {op : Op ω κ α γ}

theorem idle {r : Except Error γ}
    (h : ∀ es n w, es.get? k = c.entries.get? k → ∃ w',
      op.run (c.carrying es n, w) = (r, (c.carrying es n, w'))) :
    Op.Has k c ⟨r, c.entries.get? k, none⟩ op := by
  intro es n w hk
  obtain ⟨w', hrun⟩ := h es n w hk
  exact ⟨es, w', hrun, by rw [← hk, Function.update_eq_self]⟩

theorem map (h : Op.Has k c E op) (f : γ → δ) :
    Op.Has k c ⟨E.result.map f, E.entry, E.counter⟩ (op >>= fun x => Pure.pure (f x)) := by
  intro es n w hk
  obtain ⟨es', w', hrun, hes'⟩ := h es n w hk
  exact ⟨es', w', by rw [Action.run_bind_pure, hrun], hes'⟩

theorem discard (h : Op.Has k c E op) :
    Op.Has k c ⟨E.result.map fun _ => (), E.entry, E.counter⟩ (discard op) :=
  h.map fun _ => ()

end Op.Has

variable {c : Cache ω κ α}

theorem run_notify_unheard (h : c.listeners = []) (t : EventType) (k : κ)
    (value old : Option α) (w : ω) : (notify t k value old).run (c, w) = (.ok (), (c, w)) := by
  change ((Action.forEach _ c.listeners).beside).run (c, w) = _
  rw [h]
  rfl

theorem run_tellStored_unheard (h : c.listeners = []) (k : κ) (v : α) (old : Option α) (w : ω) :
    (tellStored k v old).run (c, w) = (.ok (), (c, w)) := by
  cases old <;> exact run_notify_unheard h ..

theorem asks_memoryless {f : Writer ω κ α → Action ω Unit}
    (h : ∀ wr ∈ c.writer?, (f wr).Memoryless) :
    ∃ r, ∀ es n w, ∃ w', (onSome c.writer? f).beside.run (c.carrying es n, w) =
      (r, (c.carrying es n, w')) := by
  have hasked : (onSome c.writer? f).Memoryless := by
    cases hwr : c.writer? with
    | none => exact .pure ()
    | some wr => exact h wr hwr
  obtain ⟨r, hr⟩ := hasked
  refine ⟨r, fun es n w => ⟨((onSome c.writer? f).run w).2, ?_⟩⟩
  rw [Action.run_beside, hr]

namespace Memoryless

variable (h : c.Memoryless) (k : κ)
include h

theorem writeThrough (v : α) : ∃ r, ∀ es n w, ∃ w', (writeThrough k v).run (c.carrying es n, w) =
    (r, (c.carrying es n, w')) :=
  asks_memoryless fun wr hwr => (h.writes wr hwr k v).mapError _

theorem deleteThrough : ∃ r, ∀ es n w, ∃ w', (deleteThrough k).run (c.carrying es n, w) =
    (r, (c.carrying es n, w')) :=
  asks_memoryless fun wr hwr => (h.deletes wr hwr k).mapError _

theorem storeValue (v : α) : ∃ E, Op.Has k c E (storeValue k v) := by
  obtain ⟨r, hr⟩ := h.writeThrough k v
  rcases r with e | _
  · refine ⟨_, .idle (r := .error e) fun es n w _ => ?_⟩
    obtain ⟨w', hw'⟩ := hr es n w
    exact ⟨w', run_storeValue_of_refused hw'⟩
  · cases hcopy : c.copy v with
    | error e =>
      refine ⟨_, .idle (r := .error e) fun es n w _ => ?_⟩
      obtain ⟨w', hw'⟩ := hr es n w
      exact ⟨w', run_storeValue_of_no_copy hw' hcopy⟩
    | ok u =>
      refine ⟨⟨.ok (c.entries.get? k), some u, some .puts⟩, fun es n w hk => ?_⟩
      obtain ⟨w', hw'⟩ := hr es n w
      refine ⟨es.insert k u, w', ?_, FiniteMap.get?_insert_eq_update ..⟩
      have hold : (c.carrying es n).entries.get? k = c.entries.get? k := hk
      rw [run_storeValue_of_written hw' hcopy, Action.run_bind_pure,
        run_tellStored_unheard (c := ((c.carrying es n).enter k u).countPut) h.unheard, hold]
      rfl

theorem deleteValue : ∃ E, Op.Has k c E (deleteValue k) := by
  obtain ⟨r, hr⟩ := h.deleteThrough k
  rcases r with e | _
  · refine ⟨_, .idle (r := .error e) fun es n w _ => ?_⟩
    obtain ⟨w', hw'⟩ := hr es n w
    exact ⟨w', run_deleteValue_of_refused hw'⟩
  · cases hold : c.entries.get? k with
    | none =>
      refine ⟨_, .idle (r := .ok none) fun es n w hk => ?_⟩
      obtain ⟨w', hw'⟩ := hr es n w
      exact ⟨w', run_deleteValue_of_absent hw' (hk.trans hold)⟩
    | some o =>
      refine ⟨⟨.ok (some o), none, some .removals⟩, fun es n w hk => ?_⟩
      obtain ⟨w', hw'⟩ := hr es n w
      refine ⟨es.erase k, w', ?_, FiniteMap.get?_erase_eq_update ..⟩
      rw [run_deleteValue_of_mapped hw' (hk.trans hold), Action.run_bind_pure,
        run_notify_unheard (c := (c.carrying es n).without k) h.unheard]
      rfl

theorem apply (o : Outcome α) : ∃ E, Op.Has k c E (apply k o) := by
  cases o with
  | nothing => exact ⟨_, .idle fun es n w _ => ⟨w, rfl⟩⟩
  | accessed => exact ⟨⟨.ok (), c.entries.get? k, some .hits⟩, fun es n w hk =>
      ⟨es, w, rfl, by rw [← hk, Function.update_eq_self]⟩⟩
  | loaded v => exact (h.storeValue k v).imp' _ fun _ hE => hE.discard
  | created v => exact (h.storeValue k v).imp' _ fun _ hE => hE.discard
  | updated v => exact (h.storeValue k v).imp' _ fun _ hE => hE.discard
  | removed => exact (h.deleteValue k).imp' _ fun _ hE => hE.discard

theorem commit (staged : StagedEntry α) : ∃ E, Op.Has k c E (commit k staged) := by
  cases houtcome : staged.outcome with
  | error e => exact ⟨_, .idle fun es n w _ => ⟨w, run_commit_of_error houtcome _⟩⟩
  | ok o =>
    have hcommit : Cache.commit k staged = (Cache.apply k o : Op ω κ α Unit) := by
      rw [Cache.commit, houtcome]
      rfl
    rw [hcommit]
    exact h.apply k o

theorem invoke (hopen : c.closed = false) (p : Processor α β) : ∃ E, Op.Has k c E (invoke k p) := by
  have hcurrent (es : FiniteMap κ α) (n : Statistics) (hk : es.get? k = c.entries.get? k) :
      current k (c.carrying es n) = current k c := by
    simp only [current, carrying, hk]
  cases hv : current k c with
  | error e =>
    refine ⟨_, .idle (r := .error e) fun es n w hk => ⟨w, ?_⟩⟩
    rw [run_invoke (c := c.carrying es n) hopen, hcurrent es n hk, hv]
  | ok v =>
    have hloads : ∀ load ∈ loading k c, load.Memoryless := by
      intro load hload
      obtain ⟨l, hl, rfl⟩ := Option.map_eq_some_iff.1 hload
      exact h.loads l hl k
    obtain ⟨r, staged, hrun⟩ := StagedEntry.run_memoryless hloads p (.ofCurrent v)
    cases r with
    | error e =>
      refine ⟨_, .idle (r := .error (e.attributeTo .processor)) fun es n w hk => ?_⟩
      obtain ⟨w₁, hw₁⟩ := hrun w
      exact ⟨w₁, run_invoke_of_failed (c := c.carrying es n) hopen
        ((hcurrent es n hk).trans hv) hw₁⟩
    | ok b =>
      obtain ⟨E, hE⟩ := h.commit k staged
      refine ⟨⟨E.result.map fun _ => b, E.entry, E.counter⟩, fun es n w hk => ?_⟩
      obtain ⟨w₁, hw₁⟩ := hrun w
      obtain ⟨es', w₂, hcommit, hes'⟩ := hE es n w₁ hk
      refine ⟨es', w₂, ?_, hes'⟩
      rw [run_invoke_of_ended (c := c.carrying es n) hopen ((hcurrent es n hk).trans hv)
        hw₁, hcommit]

end Memoryless

section Batches

variable {E : κ → Effect α β} {step : κ → Op ω κ α β} {ks : List κ} {w : ω} {p : κ → Processor α β}

theorem resultsOf_effects (hks : ks.Nodup) (hE : ∀ k, Op.Has k c (E k) (step k))
    {es : FiniteMap κ α} (hes : ∀ k ∈ ks, es.get? k = c.entries.get? k) (n : Statistics) (w : ω) :
    ∃ es' w', resultsOf step ks (c.carrying es n, w) = (ks.map fun k => (k, (E k).result),
        (c.carrying es' (ks.foldl (fun n k => Counter.count (E k).counter n) n), w')) ∧
      ∀ j, es'.get? j = if j ∈ ks then (E j).entry else es.get? j := by
  induction ks generalizing es n w with
  | nil => exact ⟨es, w, rfl, fun j => rfl⟩
  | cons k ks ih =>
    rw [List.nodup_cons] at hks
    rw [List.forall_mem_cons] at hes
    obtain ⟨es₁, w₁, hstep, hes₁⟩ := hE k es n w hes.1
    have hrest : ∀ j ∈ ks, es₁.get? j = c.entries.get? j := by
      intro j hj
      rw [hes₁, Function.update_of_ne (ne_of_mem_of_not_mem hj hks.1)]
      exact hes.2 j hj
    obtain ⟨es₂, w₂, hrun, hes₂⟩ := ih hks.2 hrest (Counter.count (E k).counter n) w₁
    refine ⟨es₂, w₂, ?_, fun j => ?_⟩
    · rw [Action.run] at hstep
      rw [resultsOf, hstep]
      simp only [hrun]
      rfl
    · rw [hes₂, hes₁, Function.update_apply]
      grind

/-- Every key of a batch fares as it would alone, and nothing else happens in the cache. -/
structure EachAlone (p : κ → Processor α β) (ks : List κ) (s : Cache ω κ α × ω) : Prop where
  results : (invokeAll p ks s).1 = ks.map fun k => (k, ((invoke k (p k)).run s).1)
  mapped : ∀ k ∈ ks, (invokeAll p ks s).2.1.entries.get? k =
    ((invoke k (p k)).run s).2.1.entries.get? k
  others : ∀ k ∉ ks, (invokeAll p ks s).2.1.entries.get? k = s.1.entries.get? k
  rest : (invokeAll p ks s).2.1 = s.1.carrying (invokeAll p ks s).2.1.entries
    (invokeAll p ks s).2.1.stats

structure SameInAnyOrder (x y : List (κ × Except Error β) × (Cache ω κ α × ω)) : Prop where
  results : x.1.Perm y.1
  entries : x.2.1.entries.get? = y.2.1.entries.get?
  stats : x.2.1.stats = y.2.1.stats

/-- In whatever order the keys of a batch are taken, each of them fares as it would alone, and the
batch comes to the same. -/
theorem invokeAll_order (hc : c.Memoryless) (hopen : c.closed = false) (hks : ks.Nodup)
    (p : κ → Processor α β) (w : ω) : EachAlone p ks (c, w) ∧
      ∀ ks', ks'.Perm ks → SameInAnyOrder (invokeAll p ks' (c, w)) (invokeAll p ks (c, w)) := by
  choose E hE using fun k => hc.invoke k hopen (p k)
  have hbatch {ks : List κ} (hks : ks.Nodup) := resultsOf_effects hks hE (fun _ _ => rfl) c.stats w
  obtain ⟨es, w₁, hrun, hes⟩ := hbatch hks
  have hrun : invokeAll p ks (c, w) = _ := hrun
  refine ⟨?_, fun ks' hperm => ?_⟩
  · have hlone (k : κ) : ((invoke k (p k)).run (c, w)).1 = (E k).result ∧
        ((invoke k (p k)).run (c, w)).2.1.entries.get? k = (E k).entry := by
      obtain ⟨es', w', hinvoke, hes'⟩ := hE k c.entries c.stats w rfl
      have hinvoke : (invoke k (p k)).run (c, w) = _ := hinvoke
      rw [hinvoke]
      exact ⟨rfl, by rw [carrying, hes', Function.update_self]⟩
    refine ⟨?_, fun k hk => ?_, fun k hk => ?_, ?_⟩
    · simp only [hrun, hlone]
    · rw [hrun, (hlone k).2]
      exact (hes k).trans (if_pos hk)
    · rw [hrun]
      exact (hes k).trans (if_neg hk)
    · rw [hrun]
      rfl
  · obtain ⟨es', w', hrun', hes'⟩ := hbatch (hperm.nodup_iff.2 hks)
    have hrun' : invokeAll p ks' (c, w) = _ := hrun'
    rw [hrun, hrun']
    refine ⟨hperm.map _, funext fun k => ?_, ?_⟩
    · simp only [carrying, hes, hes', hperm.mem_iff]
    · exact hperm.foldl_eq' (fun _ _ _ _ n => Counter.count_comm ..) c.stats

/-- One key is updated, one cannot be loaded, and one is read-only for the writer; the world counts
the calls. -/
theorem invokeAll_order_of_three :
    let gone : Error := .cache "gone"
    let denied : Error := .cache "read-only"
    let loader : Loader Nat Nat Nat :=
      { load := fun k n => (if k = 2 then .error gone else .ok (some (10 * k)), n + 1) }
    let writer : Writer Nat Nat Nat :=
      { write := fun k _ n => (if k = 3 then .error denied else .ok (), n + 1), delete :=
        fun _ n => (.ok (), n + 1) }
    let config : Configuration Nat Nat Nat :=
      { flags := { (default : Flags) with readThrough := true, writeThrough := true }
        listeners := []
        loader := some (.singleton 0 loader)
        writer := some (.singleton 1 writer)
        expiry := .singleton 2 .eternal }
    let c := (create "c" config .ok 0).1
    let p (k : Nat) : Processor Nat Nat := .value fun v => .set (v.getD 0 + 1) (.done (.ok k))
    (invokeAll p [3, 1, 2] (c, 0)).1 =
    [(3, .error (.wrapped .writer denied.message denied)), (1, .ok 1),
      (2, .error (.wrapped .loader gone.message gone))] ∧
      (invoke 1 (p 1)).run (c, 0) = (.ok 1, ((c.enter 1 11).countPut, 2)) ∧
      EachAlone p [1, 2, 3] (c, 0) ∧ SameInAnyOrder (invokeAll p [3, 1, 2] (c, 0))
        (invokeAll p [1, 2, 3] (c, 0)) := by
  intro gone denied loader writer config c p
  have hc : c.Memoryless := by
    refine ⟨?_, ?_, ?_, rfl⟩
    · rintro l ⟨⟩ k
      exact ⟨_, fun _ => rfl⟩
    · rintro wr ⟨⟩ k v
      exact ⟨_, fun _ => rfl⟩
    · rintro wr ⟨⟩ k
      exact ⟨_, fun _ => rfl⟩
  have hks : [1, 2, 3].Nodup := by decide
  obtain ⟨halone, horder⟩ := invokeAll_order hc rfl hks p 0
  exact ⟨rfl, rfl, halone, horder [3, 1, 2] (by decide)⟩

end Batches

end Cache

end EntryCache

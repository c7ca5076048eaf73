import EntryCache.Proofs.Backing.Store
import EntryCache.Proofs.Cache.Invariant

namespace EntryCache

open EntryCache.Action (Keeps)

variable {ω κ α β ρ : Type} [DecidableEq κ]

structure ListenerConfiguration.Leaves (f : ω → ρ) (l : ListenerConfiguration ω κ α) : Prop where
  creates : ∀ w, f (l.listener.create w).2 = f w
  hooks : ∀ w t es, ((l.listener.create w).1.dispatch t es).Leaves f
  createsFilter : ∀ g ∈ l.filter, ∀ w, f (g.create w).2 = f w
  filters : ∀ g ∈ l.filter, ∀ w e, ((g.create w).1 e).Leaves f

structure CompletionListener.Leaves (f : ω → ρ) (l : CompletionListener ω) : Prop where
  completes : l.onCompletion.Leaves f
  excepts : ∀ e, (l.onException e).Leaves f

structure Configuration.Backed (stored : ω → κ → Option α) (c : Configuration ω κ α) : Prop where
  writeThrough : c.flags.writeThrough = true
  writer : ∃ f, c.writer = some f ∧ ∀ w, (f.create w).1.Maintains stored
  loader : ∀ f ∈ c.loader, ∀ w, (f.create w).1.ReadsAll stored
  listeners : ∀ l ∈ c.listeners, l.Leaves stored

namespace Cache

variable {stored : ω → κ → Option α}

def Coherent (stored : ω → κ → Option α) (s : Cache ω κ α × ω) : Prop :=
  ∀ k v, s.1.entries.get? k = some v → stored s.2 k = some v

structure Backed (stored : ω → κ → Option α) (c : Cache ω κ α) : Prop where
  writer : ∃ wr, c.writer? = some wr ∧ wr.Maintains stored
  loader : ∀ l ∈ c.loader, l.ReadsAll stored
  listeners : ∀ r ∈ c.listeners, r.Leaves stored
  copies : ∀ v, c.copy v = .ok v

/-- The invariant: nothing but the writer changes the store, and the entries agree with it. -/
structure Synced (stored : ω → κ → Option α) (s : Cache ω κ α × ω) : Prop where
  backed : s.1.Backed stored
  coherent : Coherent stored s

namespace Synced

variable {s t : Cache ω κ α × ω}

theorem of_still (h : Synced stored s) (hs : Still stored s t) : Synced stored t := by
  obtain ⟨c', w'⟩ := t
  obtain ⟨⟨n, rfl⟩, hw⟩ := hs
  refine ⟨⟨h.backed.writer, h.backed.loader, h.backed.listeners, h.backed.copies⟩, ?_⟩
  intro k v hk
  rw [hw]
  exact h.coherent k v hk

theorem of_moved (h : Synced stored s) {k : κ} {v : Option α} (hs : Moved stored k v v s t) :
    Synced stored t := by
  obtain ⟨c', w'⟩ := t
  obtain ⟨⟨es, n, rfl, hes⟩, hw⟩ := hs
  refine ⟨⟨h.backed.writer, h.backed.loader, h.backed.listeners, h.backed.copies⟩, ?_⟩
  intro j u hj
  simp only [hes, Function.update_apply] at hj
  simp only [hw, Function.update_apply]
  split at hj
  · next hjk => rw [if_pos hjk, hj]
  · next hjk =>
    rw [if_neg hjk]
    exact h.coherent j u hj

end Synced

theorem synced_keptByChanges : KeptByChanges (Synced stored : Cache ω κ α × ω → Prop) where
  counts c w n h := h.of_still ⟨⟨n, rfl⟩, rfl⟩
  stores k v := by
    rintro ⟨c, w⟩ h
    obtain ⟨wr, hwr, hm⟩ := h.backed.writer
    rcases storeValue_effect hwr hm h.backed.listeners k v w with ⟨-, hs⟩ | hs
    · exact h.of_still hs
    · rw [h.backed.copies] at hs
      exact h.of_moved hs
  deletes k := by
    rintro ⟨c, w⟩ h
    obtain ⟨wr, hwr, hm⟩ := h.backed.writer
    rcases deleteValue_effect hwr hm h.backed.listeners k w with ⟨-, hs⟩ | hs
    · exact h.of_still hs
    · exact h.of_moved hs
  loads c l k hl w h :=
    h.of_still ⟨⟨c.stats, rfl⟩, (h.backed.loader l (loader_of_loader? hl)).leaves k w⟩
  readsThrough c w l k hl _ h := by
    have hread := (h.backed.loader l (loader_of_loader? hl)).toReads
    rcases readThrough_effect hread h.backed.listeners k w with ⟨-, hs⟩ | hs
    · exact h.of_still hs
    · split at hs
      · exact h.of_still hs
      · rw [h.backed.copies] at hs
        exact h.of_moved hs

theorem Synced.keeps_world {a : Action ω β} (h : a.Leaves stored) (c : Cache ω κ α) :
    Keeps (fun w => Synced stored (c, w)) a := fun w hs => hs.of_still ⟨⟨c.stats, rfl⟩, h w⟩

theorem Synced.keeps_enter {σ : κ → Option α} {p : κ × α} (hp : σ p.1 = some p.2) :
    Keeps (fun s => Synced stored s ∧ stored s.2 = σ)
      (copied p.2 >>= fun u => update (enter p.1 u)) := by
  rintro ⟨c, w⟩ ⟨h, hw⟩
  have hcopy : (copied p.2).run (c, w) = (.ok p.2, (c, w)) := by rw [run_copied, h.backed.copies]
  rw [Action.run_bind_of_ok hcopy]
  refine ⟨h.of_moved (k := p.1) (v := some p.2)
    ⟨⟨_, c.stats, rfl, FiniteMap.get?_insert_eq_update ..⟩, ?_⟩, hw⟩
  rw [← hp, ← hw]
  exact (Function.update_eq_self ..).symm

theorem keeps_loadInto (keys : List κ) (all : Bool) :
    Keeps (Synced stored) (loadInto keys all : Op ω κ α Unit) := by
  apply keeps_look_bind
  intro c w h
  cases hl : c.loader with
  | none => exact h
  | some l =>
    have hread := h.backed.loader l hl
    have hw := hread.leavesAll (wanted keys all c) w
    have hrun : (((l.loadAll (wanted keys all c)).mapError (·.attributeTo .loader)).beside).run
      (c, w) = _ :=
      Action.run_beside ..
    simp only
    rw [Action.run_bind_of_ok (run_look _ _)]
    rw [Action.run_mapError] at hrun
    rcases hres : (l.loadAll (wanted keys all c)).run w with ⟨e | m, w₁⟩ <;> rw [hres] at hrun hw
    · rw [Action.run_bind_of_error hrun]
      exact h.of_still ⟨⟨c.stats, rfl⟩, hw⟩
    · rw [Action.run_bind_of_ok hrun]
      -- What was loaded agrees with the store as it stood then, so the store has to stand still
      -- while it is entered.
      have hm := hread.loadedAll (congrArg Prod.fst hres)
      refine (Keeps.forEach (I := fun s => Synced stored s ∧ stored s.2 = stored w) ?_ (c, w₁) ?_).1
      · rintro ⟨k, v⟩ hkv
        exact Synced.keeps_enter (hm k v (FiniteMap.mem_toList_iff.1 hkv))
      · exact ⟨h.of_still ⟨⟨c.stats, rfl⟩, hw⟩, hw⟩

theorem keeps_loadAll (keys : List κ) (all : Bool) {listener : Option (CompletionListener ω)}
    (hl : ∀ l ∈ listener, l.Leaves stored) :
    Keeps (Synced stored) (loadAll keys all listener : Op ω κ α Unit) := by
  apply keeps_opened
  refine (keeps_loadInto keys all).attempt.bind fun r => .beside fun c => ?_
  cases listener with
  | none => exact .pure ()
  | some l =>
    cases r with
    | ok x => exact Synced.keeps_world (hl l rfl).completes c
    | error e => exact Synced.keeps_world ((hl l rfl).excepts e) c

theorem keeps_clear : Keeps (Synced stored) (clear : Op ω κ α Unit) := by
  apply keeps_opened
  apply keeps_update
  intro c w h
  refine ⟨⟨h.backed.writer, h.backed.loader, h.backed.listeners, h.backed.copies⟩, ?_⟩
  intro k v hk
  cases hk

theorem Synced.listen {c : Cache ω κ α} {w : ω} (h : Synced stored (c, w))
    {rs : List (Registered ω κ α)}
    (hrs : ∀ r ∈ rs, r.Leaves stored) : Synced stored ({ c with listeners := rs }, w) :=
  ⟨⟨h.backed.writer, h.backed.loader, hrs, h.backed.copies⟩, h.coherent⟩

omit [DecidableEq κ] in
theorem registered_leaves {f : ω → ρ} {config : ListenerConfiguration ω κ α} (hc : config.Leaves f)
    (handle : ListenerHandle) (w : ω) (filter : Option (EventFilter ω κ α))
    (hf : ∀ x ∈ filter, ∃ g ∈ config.filter, ∃ w', x = (g.create w').1) :
    Registered.Leaves f ⟨handle, config, (config.listener.create w).1, filter⟩ where
  hooks := hc.hooks w
  filters := by
    intro x hx
    obtain ⟨g, hg, w', rfl⟩ := hf x hx
    exact hc.filters g hg w'

theorem registerListener_effect {f : ω → ρ} (handle : ListenerHandle)
    {config : ListenerConfiguration ω κ α} (hc : config.Leaves f) (c : Cache ω κ α) (w : ω) :
    ((registerListener handle config).run (c, w)).2 = (c, w) ∨
      ∃ r w₁, r.Leaves f ∧ f w₁ = f w ∧
        ((registerListener handle config).run (c, w)).2 =
          ({ c with listeners := c.listeners ++ [r] }, w₁) := by
  by_cases hclosed : c.closed = true
  · left
    rw [registerListener, Action.run_bind_of_error (run_ensureOpen_of_closed hclosed w)]
  · have hopen : c.closed = false := Bool.eq_false_iff.2 hclosed
    rw [registerListener, Action.run_bind_of_ok (run_ensureOpen hopen w),
      Action.run_bind_of_ok (run_look _ _)]
    by_cases hknown : c.listeners.any (·.handle == handle) = true
    · left
      simp only [hknown]
      rfl
    · right
      simp only [hknown, Bool.false_eq_true]
      cases hg : config.filter with
      | none =>
        refine ⟨_, _, registered_leaves hc handle w none ?_, hc.creates w, rfl⟩
        intro x hx
        cases hx
      | some filter =>
        let w₁ := (config.listener.create w).2
        have hw : f (filter.create w₁).2 = f w :=
          (hc.createsFilter filter hg w₁).trans (hc.creates w)
        refine ⟨_, _, registered_leaves hc handle w (some (filter.create w₁).1) ?_, hw, rfl⟩
        rintro x ⟨⟩
        exact ⟨filter, hg, w₁, rfl⟩

theorem keeps_registerListener (handle : ListenerHandle) {config : ListenerConfiguration ω κ α}
    (hc : config.Leaves stored) : Keeps (Synced stored) (registerListener handle config) := by
  rintro ⟨c, w⟩ h
  rcases registerListener_effect handle hc c w with hrun | ⟨r, w₁, hr, hw, hrun⟩
  · rwa [hrun]
  · rw [hrun]
    refine (h.of_still (t := (c, w₁)) ⟨⟨c.stats, rfl⟩, hw⟩).listen ?_
    exact List.forall_mem_append.2 ⟨h.backed.listeners, List.forall_mem_singleton.2 hr⟩

theorem keeps_deregisterListener (handle : ListenerHandle) :
    Keeps (Synced stored) (deregisterListener handle : Op ω κ α Unit) := by
  apply keeps_opened
  apply keeps_update
  intro c w h
  exact h.listen fun r hr => h.backed.listeners r ((List.mem_filter.1 hr).1)

theorem keeps_close : Keeps (Synced stored) (update close : Op ω κ α Unit) := by
  apply keeps_update
  intro c w h
  exact ⟨⟨h.backed.writer, h.backed.loader, h.backed.listeners, h.backed.copies⟩, h.coherent⟩

def Operation.Leaves (f : ω → ρ) : Operation ω κ α β → Prop
  | .loadAll _ _ listener => ∀ l ∈ listener, l.Leaves f
  | .getOrPutWith k compute => (compute k).Leaves f
  | .register _ config => config.Leaves f
  | _ => True

theorem Operation.Leaves.admits {op : Operation ω κ α β} (h : op.Leaves stored) :
    op.Admits (Synced stored) := by
  cases op with
  | loadAll ks all l => exact keeps_loadAll ks all h
  | clear => exact keeps_clear
  | getOrPutWith k compute => exact Synced.keeps_world h
  | register handle config => exact keeps_registerListener handle h
  | deregister handle => exact keeps_deregisterListener handle
  | close => exact keeps_close
  | _ => trivial

theorem synced_create {config : Configuration ω κ α} (hconfig : config.Backed stored)
    {copy : α → Except Error α} (hcopy : ∀ v, copy v = .ok v) (name : String) (w : ω) :
      Synced stored (create name config copy w) := by
  obtain ⟨writer, hwriter, hmaintains⟩ := hconfig.writer
  refine Keeps.forEach (fun p hp => keeps_registerListener _ ?_) _ ⟨⟨?_, ?_, ?_, hcopy⟩, ?_⟩
  · exact hconfig.listeners p.1 (List.fst_mem_of_mem_zipIdx hp)
  · refine ⟨(writer.create (createOption config.loader w).2).1, ?_, hmaintains _⟩
    simp only [writer?, hconfig.writeThrough, hwriter, createOption, if_true]
  · intro l hl
    rcases hload : config.loader with _ | f <;> rw [hload] at hl
    · cases hl
    · cases hl
      exact hconfig.loader f hload w
  · intro r hr
    cases hr
  · intro k v hk
    cases hk

end Cache

namespace Table

variable (refused : κ → Bool)

def grumbler : Listener (Table κ α) κ α where
  onCreated _ := .fail refusal

def configuration : Configuration (Table κ α) κ α where
  flags := { (default : Flags) with readThrough := true, writeThrough := true }
  listeners := [⟨.singleton 0 grumbler, none, false, true⟩]
  loader := some (.singleton 1 (loader refused))
  writer := some (.singleton 2 (writer refused))
  expiry := .singleton 3 .eternal

theorem configuration_backed :
    (configuration refused : Configuration (Table κ α) κ α).Backed id where
  writeThrough := rfl
  writer := ⟨_, rfl, fun _ => writer_maintains refused⟩
  loader := by
    rintro f ⟨⟩ w
    exact loader_reads refused
  listeners := by
    intro l hl
    obtain rfl := List.mem_singleton.1 hl
    refine ⟨fun _ => rfl, fun _ t _ => ?_, fun _ hg => ?_, fun _ hg => ?_⟩
    · cases t <;> exact fun _ => rfl
    · cases hg
    · cases hg

end Table

namespace Cache

variable {stored : ω → κ → Option α}

/-- A mapped key has the value that the store has for it, after every run of operations on a new
cache. -/
theorem coherent_runAll [DecidableEq α] {config : Configuration ω κ α}
    (hconfig : config.Backed stored)
    {copy : α → Except Error α} (hcopy : ∀ v, copy v = .ok v) {ops : List (Operation ω κ α β)}
    (hops : ∀ op ∈ ops, op.Leaves stored) (name : String) (w : ω) :
    Coherent stored (Operation.runAll ops (create name config copy w)).2 := by
  have hnew := synced_create hconfig hcopy name w
  exact (Operation.keeps_runAll synced_keptByChanges ops (fun op h => (hops op h).admits) _
    hnew).coherent

theorem coherent_runAll_table :
    let ops : List (Operation (Table Nat Nat) Nat Nat Unit) :=
      [.put 1 10, .put 3 30, .get 2, .invoke 1 (.set 11 (.done (.ok ()))),
        .loadAll [4, 3] true none, .remove 4]
    let s := (Operation.runAll ops (create "c" (Table.configuration (· == 3)) .ok some)).2
    (s.1.entries.get? 1 = some 11 ∧ s.1.entries.get? 2 = some 2 ∧ s.1.entries.get? 3 = none) ∧
    Coherent id s := by
  intro ops s
  refine ⟨⟨rfl, rfl, rfl⟩, coherent_runAll (Table.configuration_backed _) (fun _ => rfl) ?_ _ _⟩
  simp [ops, Operation.Leaves]

end Cache

end EntryCache

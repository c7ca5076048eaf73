import EntryCache.Proofs.Backing.Coherence
import EntryCache.Proofs.Cache.Recording
import EntryCache.Proofs.Events.Replay

/-! The events that the first listener of a cache is told of are a journal of the entries: replayed
from nothing they fit one after the other, and give what the cache maps. A change is told to that
listener before anything else can fail, so the journal holds after operations that fail as well. -/

namespace EntryCache

namespace Cache

open EntryCache.Action (Keeps)

variable {ω κ α β : Type} [DecidableEq κ] [DecidableEq α]
variable {journal : ω → List (Event κ α)} {r : Registered ω κ α} {c : Cache ω κ α} {w : ω}

/-- The first listener is `r`, and nothing else touches its record. -/
structure Listened (journal : ω → List (Event κ α)) (r : Registered ω κ α)
    (c : Cache ω κ α) : Prop where
  listeners : ∃ others, c.listeners = r :: others ∧ ∀ x ∈ others, x.Leaves journal
  writer : ∀ wr ∈ c.writer, wr.Leaves journal
  loader : ∀ l ∈ c.loader, ∀ k, (l.load k).Leaves journal
  copies : ∀ v, c.copy v = .ok v

omit [DecidableEq α] in
theorem Listened.of_same (h : c.Listened journal r) (es : FiniteMap κ α) (n : Statistics) :
    Listened journal r { c with entries := es, stats := n } :=
  ⟨h.listeners, h.writer, h.loader, h.copies⟩

omit [DecidableEq α] in
theorem Listened.written (h : c.Listened journal r) : ∀ wr ∈ c.writer?, wr.Leaves journal :=
  fun wr hwr => h.writer wr (writer_of_writer? hwr)

/-- Whether a listener hears of all that an operation does: nobody hears of a bulk load or of a
clearing, and a listener hears of nothing once it is deregistered. -/
def Operation.HeardBy (handle : ListenerHandle) : Operation ω κ α β → Prop
  | .loadAll _ _ _ => False
  | .clear => False
  | .deregister handle' => handle' ≠ handle
  | _ => True

structure Quiet (journal : ω → List (Event κ α)) (r : Registered ω κ α)
    (s t : Cache ω κ α × ω) : Prop where
  listened : t.1.Listened journal r
  entries : t.1.entries = s.1.entries
  stats : t.1.stats = s.1.stats
  journal : journal t.2 = journal s.2

structure Told (journal : ω → List (Event κ α)) (e : Event κ α) (c : Cache ω κ α)
    (s t : Cache ω κ α × ω) : Prop where
  cache : t.1 = c
  journal : journal t.2 = journal s.2 ++ [e]

namespace Listened

omit [DecidableEq α]

theorem quiet (hc : c.Listened journal r) {w₁ : ω} (hw : journal w₁ = journal w) :
    Quiet journal r (c, w) (c, w₁) := ⟨hc, rfl, rfl, hw⟩

theorem storeValue (hc : c.Listened journal r) (hr : r.Hears journal) (k : κ) (v : α) (w : ω) :
    let old := c.entries.get? k
    Quiet journal r (c, w) ((storeValue k v).run (c, w)).2 ∨
      Told journal (eventFor c.name (storedType old) k (some v) old r) (c.enter k v).countPut (c, w)
        ((storeValue k v).run (c, w)).2 := by
  intro old
  obtain ⟨others, hl, hothers⟩ := hc.listeners
  obtain ⟨x, w₁, hrun, hw⟩ := writeThrough_leaves hc.written k v w
  cases x with
  | error e =>
    left
    rw [run_storeValue_of_refused hrun]
    exact hc.quiet hw
  | ok x =>
    right
    rw [run_storeValue_of_written hrun (hc.copies v), Action.snd_run_bind_pure]
    refine ⟨tellStored_cache .., ?_⟩
    rw [← show journal w₁ = journal w from hw]
    exact tellStored_heard (c := (c.enter k v).countPut) hr hl hothers k v old w₁

theorem deleteValue (hc : c.Listened journal r) (hr : r.Hears journal) (k : κ) (w : ω) :
    Quiet journal r (c, w) ((deleteValue k).run (c, w)).2 ∨
      ∃ o, c.entries.get? k = some o ∧
        Told journal (eventFor c.name .removed k (some o) (some o) r) (c.without k) (c, w)
          ((deleteValue k).run (c, w)).2 := by
  obtain ⟨others, hl, hothers⟩ := hc.listeners
  obtain ⟨x, w₁, hrun, hw⟩ := deleteThrough_leaves hc.written k w
  cases x with
  | error e =>
    left
    rw [run_deleteValue_of_refused hrun]
    exact hc.quiet hw
  | ok x =>
    cases hold : c.entries.get? k with
    | none =>
      left
      rw [run_deleteValue_of_absent hrun hold]
      exact hc.quiet hw
    | some o =>
      right
      rw [run_deleteValue_of_mapped hrun hold, Action.snd_run_bind_pure]
      refine ⟨o, rfl, notify_cache .., ?_⟩
      rw [← show journal w₁ = journal w from hw]
      exact notify_heard (c := c.without k) hr hl hothers .removed k (some o) (some o) w₁

theorem readThrough (hc : c.Listened journal r) (hr : r.Hears journal) {l : Loader ω κ α} {k : κ}
    (hload : (l.load k).Leaves journal) (w : ω) :
    match ((l.load k).run w).1 with
    | .ok (some v) => Told journal (eventFor c.name .created k (some v) none r) (c.enter k v) (c, w)
        ((readThrough k l).run (c, w)).2
    | _ => Quiet journal r (c, w) ((readThrough k l).run (c, w)).2 := by
  obtain ⟨others, hl, hothers⟩ := hc.listeners
  have hw := hload w
  cases hres : (l.load k).run w with
  | mk x w₁ =>
    rw [hres] at hw
    match x with
    | .error e =>
      rw [run_readThrough_of_failed hres]
      exact hc.quiet hw
    | .ok none =>
      rw [run_readThrough_of_none hres]
      exact hc.quiet hw
    | .ok (some v) =>
      rw [run_readThrough_of_some hres (hc.copies v), Action.snd_run_bind_pure]
      refine ⟨notify_cache .., ?_⟩
      rw [← show journal w₁ = journal w from hw]
      exact notify_heard (c := c.enter k v) hr hl hothers .created k (some v) none w₁

theorem listen (hc : c.Listened journal r) {others : List (Registered ω κ α)}
    (hothers : ∀ x ∈ others, x.Leaves journal) :
    Listened journal r { c with listeners := r :: others } :=
  ⟨⟨others, rfl, hothers⟩, hc.writer, hc.loader, hc.copies⟩

theorem registerListener (hc : c.Listened journal r) (handle : ListenerHandle)
    {config : ListenerConfiguration ω κ α} (hconfig : config.Leaves journal) (w : ω) :
    Quiet journal r (c, w) ((registerListener handle config).run (c, w)).2 := by
  obtain ⟨others, hl, hothers⟩ := hc.listeners
  rcases registerListener_effect handle hconfig c w with hrun | ⟨x, w₁, hx, hw, hrun⟩
  · rw [hrun]
    exact hc.quiet rfl
  · rw [hrun, hl]
    exact ⟨hc.listen (List.forall_mem_append.2 ⟨hothers, List.forall_mem_singleton.2 hx⟩),
      rfl, rfl, hw⟩

theorem without_listener (hc : c.Listened journal r) {handle : ListenerHandle}
    (hne : handle ≠ r.handle) :
    Listened journal r { c with listeners := c.listeners.filter (·.handle != handle) } := by
  obtain ⟨others, hl, hothers⟩ := hc.listeners
  have hfilter : c.listeners.filter (·.handle != handle) =
      r :: others.filter (·.handle != handle) := by
    rw [hl, List.filter_cons_of_pos (by simpa using Ne.symm hne)]
  rw [hfilter]
  exact hc.listen fun x hx => hothers x (List.mem_filter.1 hx).1

theorem close (hc : c.Listened journal r) : c.close.Listened journal r :=
  ⟨hc.listeners, hc.writer, hc.loader, hc.copies⟩

theorem admits_of_quiet {I : Cache ω κ α × ω → Prop}
    (hI : ∀ {s t}, I s → Quiet journal r s t → I t)
    (hlistened : ∀ {s}, I s → s.1.Listened journal r) {op : Operation ω κ α β}
    (h : op.HeardBy r.handle) (hop : op.Leaves journal) : op.Admits I := by
  cases op with
  | loadAll ks all l => exact h.elim
  | clear => exact h.elim
  | getOrPutWith k compute => exact fun c w hs => hI hs ((hlistened hs).quiet (hop w))
  | register handle config =>
    exact fun ⟨c, w⟩ hs => hI hs ((hlistened hs).registerListener handle hop w)
  | deregister handle =>
    apply keeps_opened
    exact keeps_update fun c w hs => hI hs ⟨(hlistened hs).without_listener h, rfl, rfl, rfl⟩
  | close => exact keeps_update fun c w hs => hI hs ⟨(hlistened hs).close, rfl, rfl, rfl⟩
  | _ => trivial

end Listened

/-- What the journal tells of, from nothing on, is what the cache maps. -/
def Faithful (journal : ω → List (Event κ α)) (s : Cache ω κ α × ω) : Prop :=
  Event.replay (fun _ => none) (journal s.2) = some s.1.entries.get?

structure Journaled (journal : ω → List (Event κ α)) (r : Registered ω κ α)
    (s : Cache ω κ α × ω) : Prop where
  listened : s.1.Listened journal r
  faithful : Faithful journal s

namespace Journaled

variable {t : Cache ω κ α × ω}

theorem of_quiet {s : Cache ω κ α × ω} (h : Journaled journal r s) (ht : Quiet journal r s t) :
    Journaled journal r t := by
  refine ⟨ht.listened, ?_⟩
  rw [Faithful, ht.journal, ht.entries]
  exact h.faithful

theorem of_told (h : Journaled journal r (c, w)) {e : Event κ α} {es : FiniteMap κ α}
    {n : Statistics} (ht : Told journal e { c with entries := es, stats := n } (c, w) t)
    (hfits : e.fits c.entries.get? = true)
    (hes : es.get? = e.effect c.entries.get?) : Journaled journal r t := by
  obtain ⟨c', w'⟩ := t
  obtain rfl : c' = _ := ht.cache
  refine ⟨h.listened.of_same es n, ?_⟩
  rw [Faithful, ht.journal]
  simp only [hes]
  exact Event.replay_snoc h.faithful hfits

end Journaled

omit [DecidableEq κ] in
theorem storedEvent_fits (source : String) (m : Table κ α) (k : κ) (v : α) :
    (storedEvent source k v (m k)).fits m = true := by
  cases hk : m k <;> simp [storedEvent, Event.fits, hk]

omit [DecidableEq α] in
theorem storedEvent_effect (source : String) (m : Table κ α) (k : κ) (v : α) (old : Option α) :
    (storedEvent source k v old).effect m = Function.update m k (some v) := by
  cases old <;> simp [storedEvent, Event.effect]

omit [DecidableEq κ] in
theorem removed_fits (source : String) {m : Table κ α} {k : κ} {o : α} (h : m k = some o) :
    (⟨source, .removed, k, some o, some o⟩ : Event κ α).fits m = true := by
  simp [Event.fits, h]

omit [DecidableEq α] in
theorem removed_effect (source : String) (m : Table κ α) (k : κ) (value old : Option α) :
    (⟨source, .removed, k, value, old⟩ : Event κ α).effect m = Function.update m k none := by
  simp [Event.effect]

namespace Journaled

theorem storeValue (hr : r.Records journal) (h : Journaled journal r (c, w)) (k : κ) (v : α) :
    Journaled journal r ((storeValue k v).run (c, w)).2 := by
  rcases h.listened.storeValue hr.hears k v w with ht | ht
  · exact h.of_quiet ht
  · rw [hr.eventFor_eq] at ht
    apply h.of_told (e := storedEvent c.name k v (c.entries.get? k)) ht
    · exact storedEvent_fits ..
    · rw [storedEvent_effect]
      exact FiniteMap.get?_insert_eq_update ..

theorem deleteValue (hr : r.Records journal) (h : Journaled journal r (c, w)) (k : κ) :
    Journaled journal r ((deleteValue k).run (c, w)).2 := by
  rcases h.listened.deleteValue hr.hears k w with ht | ⟨o, hold, ht⟩
  · exact h.of_quiet ht
  · rw [hr.eventFor_eq] at ht
    apply h.of_told ht
    · exact removed_fits _ hold
    · rw [removed_effect, ← FiniteMap.get?_erase_eq_update]

theorem readThrough (hr : r.Records journal) (h : Journaled journal r (c, w))
    {l : Loader ω κ α} {k : κ} (hload : (l.load k).Leaves journal) (hk : c.entries.get? k = none) :
    Journaled journal r ((readThrough k l).run (c, w)).2 := by
  have ht := h.listened.readThrough hr.hears hload w
  split at ht
  · next v _ =>
    rw [hr.eventFor_eq] at ht
    apply h.of_told (e := storedEvent c.name k v none) (n := c.stats) ht
    · rw [← hk]
      exact storedEvent_fits ..
    · rw [storedEvent_effect]
      exact FiniteMap.get?_insert_eq_update ..
  · exact h.of_quiet ht

end Journaled

theorem journaled_keptByChanges (hr : r.Records journal) :
    KeptByChanges (Journaled journal r : Cache ω κ α × ω → Prop) where
  counts c w n h := ⟨h.listened.of_same c.entries n, h.faithful⟩
  stores k v := by
    rintro ⟨c, w⟩ h
    exact h.storeValue hr k v
  deletes k := by
    rintro ⟨c, w⟩ h
    exact h.deleteValue hr k
  loads c l k hl w h := h.of_quiet
    (h.listened.quiet (h.listened.loader l (loader_of_loader? hl) k w))
  readsThrough c w l k hl hk h := h.readThrough hr (h.listened.loader l (loader_of_loader? hl) k) hk

end Cache

namespace Notes

variable {κ α : Type}

def registered : Registered (Notes κ α) κ α :=
  ⟨.initial 0, ⟨.singleton 0 listener, none, true, true⟩, listener, none⟩

theorem records : registered.Records (events : Notes κ α → List (Event κ α)) := by
  refine ⟨rfl, rfl, fun t es w => ?_⟩
  rw [show registered.listener = listener from rfl, listener_dispatch]
  rfl

def grumbler : Listener (Notes κ α) κ α where
  onRemoved _ := .fail (.illegalState "no removals")

theorem listened [DecidableEq κ] (load : κ → Option α) (writeThrough : Bool) :
    let others := [⟨.singleton 4 grumbler, none, false, true⟩]
    (Cache.create "c" (configuration load writeThrough others) .ok {}).1.Listened events
      registered := by
  refine ⟨⟨_, rfl, ?_⟩, ?_, ?_, fun _ => rfl⟩
  · intro x hx
    obtain rfl := List.mem_singleton.1 hx
    refine ⟨fun t _ => ?_, fun _ hg => ?_⟩
    · cases t <;> exact fun _ => rfl
    · cases hg
  · rintro wr ⟨⟩
    exact writer_leaves_events
  · rintro l ⟨⟩
    exact fun _ _ => rfl

end Notes

namespace Cache

variable {ω κ α β : Type} [DecidableEq κ] [DecidableEq α]
variable {journal : ω → List (Event κ α)} {r : Registered ω κ α} {c : Cache ω κ α} {w : ω}

/-- What the first listener is told, from when nothing is mapped, is a faithful journal after every
run of operations that it hears of. -/
theorem faithful_runAll (hr : r.Records journal) (hc : c.Listened journal r) (hnew : c.entries = ∅)
    (hw : journal w = []) {ops : List (Operation ω κ α β)}
    (hops : ∀ op ∈ ops, op.Leaves journal ∧ op.HeardBy r.handle) :
    Faithful journal (Operation.runAll ops (c, w)).2 := by
  have hstart : Journaled journal r (c, w) := by
    refine ⟨hc, ?_⟩
    rw [Faithful, hw, hnew]
    rfl
  have hadmits : ∀ op ∈ ops, op.Admits (Journaled journal r) := fun op h =>
    Listened.admits_of_quiet .of_quiet Journaled.listened (hops op h).2 (hops op h).1
  exact (Operation.keeps_runAll (journaled_keptByChanges hr) ops hadmits _ hstart).faithful

theorem faithful_runAll_failing :
    let others : List (ListenerConfiguration (Notes Nat Nat) Nat Nat) :=
      [⟨.singleton 4 { onRemoved := fun _ => .fail (.illegalState "no removals") }, none,
        false, true⟩]
    let c :=
      (create "c" (Notes.configuration (fun k => if k = 2 then some 20 else none) true others)
        .ok {}).1
    let ops : List (Operation (Notes Nat Nat) Nat Nat Unit) :=
      [.get 2, .put 1 10, .invoke 1 (.set 11 (.done (.ok ()))),
        .invoke 3 (.set 30 .removeValue), .remove 2]
    let s := (Operation.runAll ops (c, {})).2
    (s.2.events.map Event.type = [.created, .created, .updated, .removed] ∧
      s.1.entries.get? 1 = some 11 ∧ s.1.entries.get? 2 = none) ∧
      Faithful Notes.events s := by
  intro others c ops s
  have hc : c.Listened Notes.events Notes.registered := Notes.listened ..
  have hops : ∀ op ∈ ops, op.Leaves Notes.events ∧ op.HeardBy (.initial 0) := by
    simp [ops, Operation.Leaves, Operation.HeardBy]
  exact ⟨by decide +kernel, faithful_runAll Notes.records hc rfl rfl hops⟩

end Cache

end EntryCache

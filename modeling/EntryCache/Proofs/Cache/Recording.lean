import EntryCache.Proofs.Backing.Store

namespace EntryCache

variable {ω κ α ρ : Type} [DecidableEq κ]

inductive WriterCall (κ α : Type) : Type
  | write (k : κ) (v : α)
  | delete (k : κ)
  deriving DecidableEq

structure Writer.Leaves (f : ω → ρ) (wr : Writer ω κ α) : Prop where
  write : ∀ k v, (wr.write k v).Leaves f
  delete : ∀ k, (wr.delete k).Leaves f

structure Writer.Records (calls : ω → List (WriterCall κ α)) (wr : Writer ω κ α) : Prop where
  write : ∀ k v w, calls ((wr.write k v).run w).2 = calls w ++ [.write k v]
  delete : ∀ k w, calls ((wr.delete k).run w).2 = calls w ++ [.delete k]

/-- A listener without a filter, which records what it is told, whether or not it fails then. -/
structure Registered.Hears (journal : ω → List (Event κ α)) (r : Registered ω κ α) : Prop where
  unfiltered : r.filter = none
  told : ∀ t es w, journal ((r.listener.dispatch t es).run w).2 = journal w ++ es

/-- A listener that wants to hear of everything, and records what it is told, whether or not it
fails then. -/
structure Registered.Records (journal : ω → List (Event κ α)) (r : Registered ω κ α) : Prop where
  unfiltered : r.filter = none
  withOld : r.config.oldValueRequired = true
  told : ∀ t es w, journal ((r.listener.dispatch t es).run w).2 = journal w ++ es

namespace Registered.Records

variable {journal : ω → List (Event κ α)} {r : Registered ω κ α}

omit [DecidableEq κ] in
theorem hears (h : r.Records journal) : r.Hears journal := ⟨h.unfiltered, h.told⟩

omit [DecidableEq κ] in
theorem eventFor_eq (h : r.Records journal) (source : String) (t : EventType) (k : κ)
    (value old : Option α) :
    Cache.eventFor source t k value old r = ⟨source, t, k, value, old⟩ := by
  simp [Cache.eventFor, h.withOld]

end Registered.Records

namespace Cache

variable {c : Cache ω κ α} {w : ω}

theorem writeThrough_leaves {f : ω → ρ} (h : ∀ wr ∈ c.writer?, wr.Leaves f) (k : κ)
    (v : α) (w : ω) : ∃ r w₁, (writeThrough k v).run (c, w) = (r, (c, w₁)) ∧ f w₁ = f w := by
  rw [run_writeThrough]
  cases hwr : c.writer? with
  | none => exact ⟨_, _, rfl, rfl⟩
  | some wr => exact ⟨_, _, rfl, (h wr hwr).write k v w⟩

theorem deleteThrough_leaves {f : ω → ρ} (h : ∀ wr ∈ c.writer?, wr.Leaves f) (k : κ) (w : ω) :
    ∃ r w₁, (deleteThrough k).run (c, w) = (r, (c, w₁)) ∧ f w₁ = f w := by
  rw [run_deleteThrough]
  cases hwr : c.writer? with
  | none => exact ⟨_, _, rfl, rfl⟩
  | some wr => exact ⟨_, _, rfl, (h wr hwr).delete k w⟩

theorem storeValue_calls {calls : ω → List (WriterCall κ α)} {wr : Writer ω κ α}
    (hwr : c.writer? = some wr)
    (h : wr.Records calls) (hl : ∀ r ∈ c.listeners, r.Leaves calls) (k : κ) (v : α) (w : ω) :
    calls ((storeValue k v).run (c, w)).2.2 = calls w ++ [.write k v] := by
  have hrun := run_writeThrough k v c w
  rw [hwr] at hrun
  have hcall := h.write k v w
  cases hres : (wr.write k v).run w with
  | mk r w₁ =>
    simp only [hres] at hrun hcall
    cases r with
    | error e => rwa [run_storeValue_of_refused hrun]
    | ok x =>
      cases hcopy : c.copy v with
      | error e => rwa [run_storeValue_of_no_copy hrun hcopy]
      | ok u =>
        rw [run_storeValue_of_written hrun hcopy, Action.snd_run_bind_pure, ← hcall]
        exact tellStored_leaves (c := (c.enter k u).countPut) hl ..

variable {journal : ω → List (Event κ α)} {r : Registered ω κ α} {others : List (Registered ω κ α)}

omit [DecidableEq κ] in
theorem tell_heard (h : r.Hears journal) (e : Event κ α) (w : ω) :
    journal ((tell r e).run w).2 = journal w ++ [e] := by
  have haccepts : (accepts r e).run w = (.ok true, w) := by
    rw [accepts, h.unfiltered]
    rfl
  rw [tell, Action.run_bind_of_ok haccepts]
  simp only [if_true, Action.run_mapError]
  exact h.told e.type [e] w

theorem notify_heard (h : r.Hears journal) (hl : c.listeners = r :: others)
    (hothers : ∀ x ∈ others, x.Leaves journal) (t : EventType) (k : κ)
    (value old : Option α) (w : ω) :
    journal ((notify t k value old).run (c, w)).2.2 = journal w ++
      [eventFor c.name t k value old r] := by
  let told := fun x : Registered ω κ α => tell x (eventFor c.name t k value old x)
  have hrest : (Action.forEach told others).Leaves journal :=
    .of_keeps fun x => .forEach fun y hy => (tell_leaves (hothers y hy) _).keeps (· = x)
  change journal ((Action.forEach told c.listeners).run w).2 = _
  rw [hl, Action.forEach, Action.run_bind]
  have hfirst := tell_heard h (eventFor c.name t k value old r) w
  change journal ((told r).run w).2 = _ at hfirst
  cases hrun : (told r).run w with
  | mk x w₁ =>
    rw [hrun] at hfirst
    cases x with
    | error e => exact hfirst
    | ok x => exact (hrest w₁).trans hfirst

def storedType (old : Option α) : EventType := if old.isSome then .updated else .created

theorem tellStored_heard (h : r.Hears journal) (hl : c.listeners = r :: others)
    (hothers : ∀ x ∈ others, x.Leaves journal) (k : κ) (v : α) (old : Option α) (w : ω) :
    journal ((tellStored k v old).run (c, w)).2.2 =
      journal w ++ [eventFor c.name (storedType old) k (some v) old r] := by
  cases old with
  | none => exact notify_heard h hl hothers ..
  | some o => exact notify_heard h hl hothers ..

def storedEvent (source : String) (k : κ) (v : α) (old : Option α) : Event κ α where
  source := source
  type := if old.isSome then .updated else .created
  key := k
  value := some v
  oldValue := old

end Cache

structure Notes (κ α : Type) : Type where
  calls : List (WriterCall κ α) := []
  events : List (Event κ α) := []
  asked : Nat := 0

namespace Notes

variable (load : κ → Option α)

def writer : Writer (Notes κ α) κ α where
  write k v n := (.ok (), { n with calls := n.calls ++ [.write k v] })
  delete k n := (.ok (), { n with calls := n.calls ++ [.delete k] })

def loader : Loader (Notes κ α) κ α where
  load k n := (.ok (load k), { n with asked := n.asked + 1 })

def note (es : List (Event κ α)) :
    Action (Notes κ α) Unit := fun n => (.ok (), { n with events := n.events ++ es })

def listener : Listener (Notes κ α) κ α := ⟨note, note, note, note⟩

def configuration (writeThrough : Bool) (others : List (ListenerConfiguration (Notes κ α) κ α)) :
    Configuration (Notes κ α) κ α where
  flags := { (default : Flags) with readThrough := true, writeThrough := writeThrough }
  listeners := ⟨.singleton 0 listener, none, true, true⟩ :: others
  loader := some (.singleton 1 (loader load))
  writer := some (.singleton 2 writer)
  expiry := .singleton 3 .eternal

omit [DecidableEq κ] in
theorem writer_records : (writer : Writer (Notes κ α) κ α).Records calls :=
  ⟨fun _ _ _ => rfl, fun _ _ => rfl⟩

omit [DecidableEq κ] in
theorem writer_leaves_events : (writer : Writer (Notes κ α) κ α).Leaves events :=
  ⟨fun _ _ _ => rfl, fun _ _ => rfl⟩

omit [DecidableEq κ] in
theorem listener_dispatch (t : EventType) (es : List (Event κ α)) :
    listener.dispatch t es = note es := by
  cases t <;> rfl

end Notes

end EntryCache

import EntryCache.Proofs.Cache.Lasting
import EntryCache.Proofs.Cache.Recording
import EntryCache.Proofs.Configuration.Equality
import Mathlib.Data.List.Induction

namespace EntryCache

variable {ω κ α β : Type}

open ListenerConfiguration (Distinct distinct_concat)

namespace Cache

open EntryCache.Action (Keeps)

variable [DecidableEq κ] {c : Cache ω κ α} {w : ω} {s : Cache ω κ α × ω} {handle : ListenerHandle}
  {config : ListenerConfiguration ω κ α}

def configs (c : Cache ω κ α) : List (ListenerConfiguration ω κ α) := c.listeners.map (·.config)

def handles (c : Cache ω κ α) : List ListenerHandle := c.listeners.map (·.handle)

def listenTo (r : Registered ω κ α) (c : Cache ω κ α) :
    Cache ω κ α := { c with listeners := c.listeners ++ [r] }

def enlist (handle : ListenerHandle) (config : ListenerConfiguration ω κ α) (w : ω) :
    Registered ω κ α × ω :=
  let (listener, w) := config.listener.create w
  let (filter, w) := createOption config.filter w
  (⟨handle, config, listener, filter⟩, w)

theorem handles_listenTo (r : Registered ω κ α) :
    (c.listenTo r).handles = c.handles ++ [r.handle] := by
  simp [handles, listenTo]

theorem configs_listenTo (r : Registered ω κ α) :
    (c.listenTo r).configs = c.configs ++ [r.config] := by
  simp [configs, listenTo]

theorem known_iff : c.listeners.any (·.handle == handle) = true ↔ handle ∈ c.handles := by
  simp [handles]

theorem run_registerListener_of_known (hopen : c.closed = false) (h : handle ∈ c.handles) (w : ω) :
    (registerListener handle config).run (c, w) =
      (.error (.invalidArgument "listener configuration already registered"), (c, w)) := by
  rw [registerListener, Action.run_bind_of_ok (run_ensureOpen hopen w),
    Action.run_bind_of_ok (run_look _ _)]
  simp only [known_iff.2 h]
  rfl

theorem run_registerListener_of_new (hopen : c.closed = false) (h : handle ∉ c.handles) (w : ω) :
    (registerListener handle config).run (c, w) =
      (.ok (), (c.listenTo (enlist handle config w).1, (enlist handle config w).2)) := by
  have hnew : c.listeners.any (·.handle == handle) = false := Bool.eq_false_iff.2 (mt known_iff.1 h)
  rw [registerListener, Action.run_bind_of_ok (run_ensureOpen hopen w),
    Action.run_bind_of_ok (run_look _ _)]
  simp only [hnew]
  cases hf : config.filter <;> simp only [enlist, createOption, hf] <;> rfl

theorem registerListener_cases (handle : ListenerHandle) (config : ListenerConfiguration ω κ α)
    (s : Cache ω κ α × ω) :
    (s.1.closed = false ∧ handle ∉ s.1.handles ∧
      ((registerListener handle config).run s).2.1 = s.1.listenTo (enlist handle config s.2).1) ∨
    ((s.1.closed = true ∨ handle ∈ s.1.handles) ∧
      ((registerListener handle config).run s).2 = s) := by
  obtain ⟨c, w⟩ := s
  cases hclosed : c.closed with
  | true => exact .inr ⟨.inl rfl, by
      rw [registerListener, Action.run_bind_of_error (run_ensureOpen_of_closed hclosed w)]⟩
  | false =>
    by_cases h : handle ∈ c.handles
    · exact .inr ⟨.inr h, by rw [run_registerListener_of_known hclosed h]⟩
    · exact .inl ⟨rfl, h, by rw [run_registerListener_of_new hclosed h]⟩

theorem lasting_handles : Lasting fun c : Cache ω κ α => c.handles.Nodup := fun _ _ _ h => h

theorem Operation.respects_handles (op : Operation ω κ α β) :
    op.Respects fun c : Cache ω κ α => c.handles.Nodup := by
  cases op with
  | register handle config =>
    intro s hs
    rcases registerListener_cases handle config s with ⟨-, hnew, hrun⟩ | ⟨-, hrun⟩
    · rw [Having, hrun, handles_listenTo, List.nodup_append]
      refine ⟨hs, by simp, fun x hx y hy => ?_⟩
      rintro rfl
      exact hnew ((List.mem_singleton.1 hy : x = handle) ▸ hx)
    · rwa [hrun]
  | deregister handle =>
    exact keeps_opened (Having.keeps_update fun c hc => (List.filter_sublist.map _).nodup hc)
  | close => exact fun _ h => h
  | _ => trivial

theorem lasting_distinct : Lasting fun c : Cache ω κ α => Distinct c.configs := fun _ _ _ h => h

/-- A registration under a handle that is new comes with a configuration that equals none of the
registered. -/
def Operation.Apart (c : Cache ω κ α) : Operation ω κ α β → Prop
  | .register handle config =>
    c.closed = false → handle ∉ c.handles → ∀ d ∈ c.configs, d.same config = false
  | _ => True

variable [DecidableEq α]

theorem Operation.distinct_run_iff (h : Distinct s.1.configs) (op : Operation ω κ α β) :
    Distinct ((op.run id).run s).2.1.configs ↔ op.Apart s.1 := by
  have hkeeps : ∀ op : Operation ω κ α β, op.Respects (fun c => Distinct c.configs) →
      Distinct ((op.run id).run s).2.1.configs :=
    fun op hop => op.keeps_run lasting_distinct.keptByChanges (lasting_distinct.admits hop) s h
  cases op with
  | register handle config =>
    rw [run, Op.as, Action.snd_run_bind_pure]
    rcases registerListener_cases handle config s with ⟨hopen, hnew, hrun⟩ | ⟨hold, hrun⟩
    · rw [hrun, configs_listenTo, distinct_concat]
      exact ⟨fun hd _ _ => hd.2, fun hd => ⟨h, hd hopen hnew⟩⟩
    · rw [hrun]
      refine iff_of_true h fun hopen hnew => ?_
      rcases hold with hclosed | hknown
      · simp [hopen] at hclosed
      · exact absurd hknown hnew
  | deregister handle =>
    refine iff_of_true (hkeeps _ ?_) trivial
    exact keeps_opened (Having.keeps_update fun c hc => hc.sublist (List.filter_sublist.map _))
  | close => exact iff_of_true (hkeeps .close fun _ h => h) trivial
  | _ => exact iff_of_true (hkeeps _ trivial) trivial

omit [DecidableEq α]

theorem run_registerEach (ps : List (ListenerConfiguration ω κ α × Nat))
    (hps : (ps.map Prod.snd).Nodup) (c : Cache ω κ α) (hopen : c.closed = false)
    (hnew : ∀ p ∈ ps, .initial p.2 ∉ c.handles) (w : ω) :
    ∃ rs w', (Action.forEach (fun p => registerListener (.initial p.2) p.1) ps).run (c, w) =
        (.ok (), ({ c with listeners := c.listeners ++ rs }, w')) ∧
      rs.map (·.config) = ps.map Prod.fst := by
  induction ps generalizing c w with
  | nil => exact ⟨[], w, by rw [List.append_nil]; rfl, rfl⟩
  | cons p ps ih =>
    rw [List.map_cons, List.nodup_cons] at hps
    rw [List.forall_mem_cons] at hnew
    let r := (enlist (.initial p.2) p.1 w).1
    -- The handle that is taken here is that of no later place.
    have hnext : ∀ q ∈ ps, .initial q.2 ∉ (c.listenTo r).handles := by
      intro q hq
      rw [handles_listenTo, List.mem_append, List.mem_singleton]
      rintro (hold | heq)
      · exact hnew.2 q hq hold
      · exact hps.1 (List.mem_map.2 ⟨q, hq, ListenerHandle.initial.inj heq⟩)
    obtain ⟨rs, w', hrun, hconfigs⟩ :=
      ih hps.2 (c.listenTo r) hopen hnext (enlist (.initial p.2) p.1 w).2
    refine ⟨r :: rs, w', ?_, ?_⟩
    · rw [Action.forEach, Action.run_bind_of_ok (run_registerListener_of_new hopen hnew.1 w), hrun]
      simp [listenTo, r]
    · rw [List.map_cons, List.map_cons, hconfigs]
      rfl

theorem configs_create (name : String) (config : Configuration ω κ α)
    (copy : α → Except Error α) (w : ω) :
    (create name config copy w).1.configs = config.listeners := by
  have hplaces : (config.listeners.zipIdx.map Prod.snd).Nodup := by
    rw [List.zipIdx_map_snd]
    exact List.nodup_range'
  let loader := createOption config.loader w
  let writer := createOption config.writer loader.2
  obtain ⟨rs, w', hrun, hconfigs⟩ := run_registerEach config.listeners.zipIdx hplaces
    ⟨name, config, copy, loader.1, writer.1, ∅, [], default, false⟩ rfl (by simp [handles]) writer.2
  have hlisteners := congrArg (fun x => x.2.1.listeners.map (·.config)) hrun
  rw [← List.zipIdx_map_fst 0 config.listeners, ← hconfigs]
  exact hlisteners

structure Counts (told : ω → Nat) (config : ListenerConfiguration ω κ α)
    (c : Cache ω κ α) : Prop where
  equal : ∀ r ∈ c.listeners, r.config.same config = true → ∀ e w,
    told ((tell r e).run w).2 ≤ told w + 1
  other : ∀ r ∈ c.listeners, r.config.same config = false → r.Leaves told

omit [DecidableEq κ] in
theorem told_forEach {told : ω → Nat} {p : Registered ω κ α → Bool}
    {f : Registered ω κ α → Action ω Unit} (rs : List (Registered ω κ α))
    (hp : ∀ r ∈ rs, p r = true → ∀ w, told ((f r).run w).2 ≤ told w + 1)
    (hn : ∀ r ∈ rs, p r = false → (f r).Leaves told) (w : ω) :
    told ((Action.forEach f rs).run w).2 ≤ told w + rs.countP p := by
  induction rs generalizing w with
  | nil => exact Nat.le_refl _
  | cons r rs ih =>
    rw [List.forall_mem_cons] at hp hn
    have hfirst : told ((f r).run w).2 ≤ told w + (if p r then 1 else 0) := by
      cases hr : p r with
      | true => exact hp.1 hr w
      | false => exact Nat.le_of_eq (hn.1 hr w)
    rw [Action.forEach, Action.run_bind, List.countP_cons]
    rcases hrun : (f r).run w with ⟨e | x, w'⟩ <;> rw [hrun] at hfirst
    · simp only at hfirst ⊢
      omega
    · have hrest := ih hp.2 hn.2 w'
      simp only at hfirst hrest ⊢
      omega

theorem notify_told (h : Distinct c.configs) {told : ω → Nat} (hcounts : Counts told config c)
    (t : EventType) (k : κ)
    (value old : Option α) (w : ω) : told ((notify t k value old).run (c, w)).2.2 ≤ told w + 1 := by
  have hnotify := told_forEach (f := fun r => tell r (eventFor c.name t k value old r)) c.listeners
    (fun r hr hsame => hcounts.equal r hr hsame _)
    (fun r hr hsame => tell_leaves (hcounts.other r hr hsame) _) w
  have hone := h.countP_le config
  rw [configs, List.countP_map] at hone
  exact Nat.le_trans hnotify (Nat.add_le_add_left hone _)

/-- What registrations come to: a handle is taken at most once, and it is the handle that
decides. -/
structure ByHandle (s : Cache ω κ α × ω) : Prop where
  handles : s.1.handles.Nodup
  refused : ∀ handle config, s.1.closed = false → handle ∈ s.1.handles →
    (registerListener handle config).run s =
      (.error (.invalidArgument "listener configuration already registered"), s)
  accepted : ∀ handle config, s.1.closed = false → handle ∉ s.1.handles →
    (registerListener handle config).run s =
      (.ok (), (s.1.listenTo (enlist handle config s.2).1, (enlist handle config s.2).2))
  toldOnce : Distinct s.1.configs → ∀ told config, s.1.Counts told config → ∀ t k value old,
    told ((notify t k value old).run s).2.2 ≤ told s.2 + 1

theorem byHandle (h : s.1.handles.Nodup) : ByHandle s where
  handles := h
  refused _ _ hopen hknown := run_registerListener_of_known hopen hknown s.2
  accepted _ _ hopen hnew := run_registerListener_of_new hopen hnew s.2
  toldOnce hdistinct _ _ hcounts t k value old := notify_told hdistinct hcounts t k value old s.2

theorem handles_create (name : String) (config : Configuration ω κ α)
    (copy : α → Except Error α) (w : ω) : (create name config copy w).1.handles.Nodup := by
  have hregister : ∀ p ∈ config.listeners.zipIdx,
    Keeps (Having fun c : Cache ω κ α => c.handles.Nodup)
      (registerListener (.initial p.2) p.1) := fun p _ =>
    (Operation.register (.initial p.2) p.1 : Operation ω κ α Unit).respects_handles
  exact Keeps.forEach hregister _ List.nodup_nil

variable [DecidableEq α]

theorem Operation.runAll_append (before later : List (Operation ω κ α β)) (s : Cache ω κ α × ω) :
    (runAll (before ++ later) s).2 = (runAll later (runAll before s).2).2 := by
  induction before generalizing s with
  | nil => rfl
  | cons op before ih => exact ih _

/-- In all that can become of a new cache, registrations go by the handle. Equal configurations are
registered at no time if, and only if, the configuration of the cache names none, and no run comes
to a registration of an equal configuration under a new handle. -/
theorem distinct_runAll_iff (name : String) (configuration : Configuration ω κ α)
    (copy : α → Except Error α) (w : ω) (ops : List (Operation ω κ α β)) :
    let reached := fun before => (Operation.runAll before (create name configuration copy w)).2
    (∀ before : List (Operation ω κ α β), ByHandle (reached before)) ∧
      ((∀ before, before <+: ops → Distinct (reached before).1.configs) ↔
        Distinct configuration.listeners ∧
          ∀ before op, before ++ [op] <+: ops → op.Apart (reached before).1) := by
  intro reached
  have hstep : ∀ before op, reached (before ++ [op]) = ((op.run id).run (reached before)).2 :=
    fun before op => Operation.runAll_append before [op] _
  have hcreate : (reached []).1.configs = configuration.listeners :=
    configs_create name configuration copy w
  constructor
  · intro before
    refine byHandle (Operation.keeps_runAll lasting_handles.keptByChanges before ?_ _
      (handles_create ..))
    exact fun op _ => lasting_handles.admits op.respects_handles
  · constructor
    · intro h
      refine ⟨hcreate ▸ h [] List.nil_prefix, fun before op hpre => ?_⟩
      have hnext := h (before ++ [op]) hpre
      rw [hstep] at hnext
      exact (Operation.distinct_run_iff (h before ((List.prefix_append ..).trans hpre)) op).1 hnext
    · rintro ⟨hinitial, happart⟩ before
      induction before using List.reverseRecOn with
      | nil => exact fun _ => hcreate.symm ▸ hinitial
      | append_singleton before op ih =>
        intro hpre
        rw [hstep]
        exact (Operation.distinct_run_iff (ih ((List.prefix_append ..).trans hpre)) op).2
          (happart before op hpre)

/-- One listener is registered twice, and told twice of one event. -/
theorem register_equal_told_twice :
    let l : ListenerConfiguration (Notes String String) String String :=
      ⟨.singleton 0 Notes.listener, none, false, false⟩
    let ops : List (Operation (Notes String String) String String Unit) :=
      [.register (.given 0) l, .register (.given 1) l, .put "k" "v"]
    let run := Operation.runAll ops (create "c" (Configuration.new 1) .ok {})
    let e : Event String String := ⟨"c", .created, "k", some "v", none⟩
    l.same l = true ∧ run.1 = [.ok .done, .ok .done, .ok .done] ∧ ¬ Distinct run.2.1.configs ∧
    run.2.2.events = [e, e] := by
  refine ⟨by decide, rfl, by decide, rfl⟩

end Cache

end EntryCache

import EntryCache.Proofs.Failures.Changes

namespace EntryCache

variable {ω κ α γ τ : Type}

inductive ListenerCall (κ α : Type) : Type
  | filter (e : Event κ α) (answer : Except Error Bool)
  | hook (t : EventType) (es : List (Event κ α)) (answer : Except Error Unit)

structure Registered.HeardAs (heard : ω → List (τ × ListenerCall κ α)) (tag : τ)
    (r : Registered ω κ α) : Prop where
  hooks : ∀ t es, (r.listener.hook t es).Logs heard fun answer => (tag, .hook t es answer)
  filters : ∀ g ∈ r.filter, ∀ e, (g e).Logs heard fun answer => (tag, .filter e answer)

inductive Reception : Type
  | declined
  | accepted
  | filterFailed (e : Error)
  | hookFailed (e : Error)

namespace Reception

/-- What the delivery fails with. Only the failure of a hook is that of a listener. -/
def failure : Reception → Option Error
  | .declined | .accepted => none
  | .filterFailed e => some e
  | .hookFailed e => some (e.attributeTo .listener)

def Fits (r : Registered ω κ α) : Reception → Prop
  | .declined | .filterFailed _ => r.filter.isSome = true
  | .accepted | .hookFailed _ => True

def passing (r : Registered ω κ α) (e : Event κ α) : List (ListenerCall κ α) :=
  match r.filter with
  | some _ => [.filter e (.ok true)]
  | none => []

/-- The filter is called once, and if it accepts the event, so is the hook for events of that
type. -/
def calls (r : Registered ω κ α) (e : Event κ α) : Reception → List (ListenerCall κ α)
  | .declined => [.filter e (.ok false)]
  | .filterFailed x => [.filter e (.error x)]
  | .accepted => passing r e ++ [.hook e.type [e] (.ok ())]
  | .hookFailed x => passing r e ++ [.hook e.type [e] (.error x)]

end Reception

/-- The listeners receive a change one after the other: all of them, or up to the first at which
something fails. -/
inductive Delivered (rs : List (Registered ω κ α)) : List Reception → Option Error → Prop
  | all {ys : List Reception} (reached : ys.length = rs.length) (fine : ∀ y ∈ ys, y.failure = none)
    (fits : ∀ p ∈ rs.zip ys, p.2.Fits p.1) : Delivered rs ys none
  | stopped {ys : List Reception} {y : Reception} {e : Error} (reached : ys.length < rs.length)
    (fine : ∀ y ∈ ys, y.failure = none) (failed : y.failure = some e)
      (fits : ∀ p ∈ rs.zip (ys ++ [y]), p.2.Fits p.1) :
    Delivered rs (ys ++ [y]) (some e)

def callsOf (tag : Registered ω κ α → τ) (event : Registered ω κ α → Event κ α)
    (rs : List (Registered ω κ α)) (ys : List Reception) : List (τ × ListenerCall κ α) :=
  (rs.zip ys).flatMap fun p => (p.2.calls p.1 (event p.1)).map (tag p.1, ·)

def EndsWith (failure : Option Error) (r : Except Error γ) : Prop :=
  match failure with
  | some e => r = .error e
  | none => ∃ x, r = .ok x

namespace EndsWith

variable {failure : Option Error}

theorem map {β : Type} {r : Except Error β} (h : EndsWith failure r) (f : β → γ) :
    EndsWith failure (r.map f) := by
  cases failure with
  | some e =>
    obtain rfl : r = .error e := h
    rfl
  | none =>
    obtain ⟨x, rfl⟩ := h
    exact ⟨f x, rfl⟩

theorem eq_some {e : Error} (h : EndsWith failure (.error e : Except Error γ)) :
    failure = some e := by
  cases failure with
  | some e' => exact congrArg some (Except.error.inj h).symm
  | none => exact nomatch h

theorem eq_none {x : γ} (h : EndsWith failure (.ok x)) : failure = none := by
  cases failure with
  | some e => cases h
  | none => rfl

end EndsWith

namespace Delivered

variable {r : Registered ω κ α} {rs : List (Registered ω κ α)} {y : Reception} {ys : List Reception}
  {failure : Option Error}

theorem next (h : Delivered rs ys failure) (hfine : y.failure = none) (hfits : y.Fits r) :
    Delivered (r :: rs) (y :: ys) failure := by
  cases h with
  | all reached fine fits =>
    refine .all (congrArg (· + 1) reached) (List.forall_mem_cons.2 ⟨hfine, fine⟩) ?_
    exact List.forall_mem_cons.2 ⟨hfits, fits⟩
  | @stopped ys _ _ reached fine failed fits =>
    rw [← List.cons_append]
    refine .stopped (Nat.succ_lt_succ reached) (List.forall_mem_cons.2 ⟨hfine, fine⟩) failed ?_
    exact List.forall_mem_cons.2 ⟨hfits, fits⟩

theorem stop {e : Error} (hfailed : y.failure = some e) (hfits : y.Fits r) :
    Delivered (r :: rs) [y] (some e) := by
  rw [← List.nil_append [y]]
  refine .stopped (Nat.succ_pos _) nofun hfailed ?_
  simpa using hfits

end Delivered

namespace Cache

variable {tag : Registered ω κ α → τ} {heard : ω → List (τ × ListenerCall κ α)}
  {r : Registered ω κ α}
  {rs : List (Registered ω κ α)}

theorem hook_received (h : r.HeardAs heard (tag r)) (e : Event κ α) (w : ω) :
    let x := ((r.listener.dispatch e.type [e]).mapError (·.attributeTo .listener)).run w
    ∃ (y : Reception) (call : ListenerCall κ α), y.Fits r ∧
      y.calls r e = Reception.passing r e ++ [call] ∧
      heard x.2 = heard w ++ [(tag r, call)] ∧ EndsWith y.failure x.1 := by
  have hlog := h.hooks e.type [e] w
  rw [Action.run_mapError, Listener.dispatch]
  cases hanswer : ((r.listener.hook e.type [e]).run w).1 with
  | ok u =>
    rw [hanswer] at hlog
    exact ⟨.accepted, _, trivial, rfl, hlog, u, rfl⟩
  | error x =>
    rw [hanswer] at hlog
    exact ⟨.hookFailed x, _, trivial, rfl, hlog, rfl⟩

theorem tell_received (h : r.HeardAs heard (tag r)) (e : Event κ α) (w : ω) :
    ∃ y : Reception, y.Fits r ∧ heard ((tell r e).run w).2 = heard w ++
      (y.calls r e).map (tag r, ·) ∧
      EndsWith y.failure ((tell r e).run w).1 := by
  cases hfilter : r.filter with
  | none =>
    have haccepts : (accepts r e).run w = (.ok true, w) := by
      rw [accepts, hfilter]
      rfl
    obtain ⟨y, call, hfits, hcalls, hheard, hends⟩ := hook_received h e w
    rw [tell, Action.run_bind_of_ok haccepts]
    refine ⟨y, hfits, ?_, hends⟩
    rw [hcalls, Reception.passing, hfilter]
    exact hheard
  | some g =>
    have haccepts : (accepts r e).run w = (g e).run w := by rw [accepts, hfilter]
    have hlog := h.filters g hfilter e w
    have hsome : r.filter.isSome = true := by rw [hfilter]; rfl
    rcases hrun : (g e).run w with ⟨x | b, w₁⟩ <;> rw [hrun] at haccepts hlog
    · rw [tell, Action.run_bind_of_error haccepts]
      exact ⟨.filterFailed x, hsome, hlog, rfl⟩
    · rw [tell, Action.run_bind_of_ok haccepts]
      cases b with
      | false => exact ⟨.declined, hsome, hlog, (), rfl⟩
      | true =>
        obtain ⟨y, call, hfits, hcalls, hheard, hends⟩ := hook_received h e w₁
        refine ⟨y, hfits, ?_, hends⟩
        rw [hcalls, Reception.passing, hfilter]
        exact hheard.trans (by rw [hlog, List.append_assoc]; rfl)

theorem forEach_tell_delivered (event : Registered ω κ α → Event κ α)
    (h : ∀ r ∈ rs, r.HeardAs heard (tag r)) (w : ω) :
    let x := (Action.forEach (fun r => tell r (event r)) rs).run w
    ∃ ys failure, Delivered rs ys failure ∧ heard x.2 = heard w ++ callsOf tag event rs ys ∧
      EndsWith failure x.1 := by
  induction rs generalizing w with
  | nil => exact ⟨[], none, .all rfl nofun nofun, (List.append_nil _).symm, (), rfl⟩
  | cons r rs ih =>
    rw [List.forall_mem_cons] at h
    obtain ⟨y, hfits, hheard, hends⟩ := tell_received h.1 (event r) w
    rw [Action.forEach]
    rcases hrun : (tell r (event r)).run w with ⟨x | u, w₁⟩ <;> rw [hrun] at hheard hends
    · rw [Action.run_bind_of_error hrun]
      have hfailed : y.failure = some x := hends.eq_some
      refine ⟨[y], some x, .stop hfailed hfits, ?_, rfl⟩
      rw [callsOf, List.zip_cons_cons, List.zip_nil_right, List.flatMap_singleton]
      exact hheard
    · rw [Action.run_bind_of_ok hrun]
      have hfine : y.failure = none := hends.eq_none
      obtain ⟨ys, failure, hdelivered, hrest, hfailure⟩ := ih h.2 w₁
      refine ⟨y :: ys, failure, hdelivered.next hfine hfits, ?_, hfailure⟩
      rw [hrest, hheard, List.append_assoc]
      rfl

end Cache

inductive Change (κ α : Type) : Type
  | created (k : κ) (v : α)
  | updated (k : κ) (v old : α)
  | removed (k : κ) (old : α)

namespace Change

def key : Change κ α → κ
  | .created k _ | .updated k _ _ | .removed k _ => k

def type : Change κ α → EventType
  | .created _ _ => .created
  | .updated _ _ _ => .updated
  | .removed _ _ => .removed

def value : Change κ α → α
  | .created _ v | .updated _ v _ => v
  | .removed _ old => old

def old : Change κ α → Option α
  | .created _ _ => none
  | .updated _ _ old | .removed _ old => some old

def event (source : String) (x : Change κ α) (r : Registered ω κ α) : Event κ α where
  source := source
  type := x.type
  key := x.key
  value := some x.value
  oldValue := if r.config.oldValueRequired then x.old else none

variable [DecidableEq κ]

inductive MadeIn (c : Cache ω κ α) : Change κ α → FiniteMap κ α → Prop
  | created {k : κ} {v u : α} (old : c.entries.get? k = none) (copied : c.copy v = .ok u) :
    MadeIn c (.created k v) (c.entries.insert k u)
  | updated {k : κ} {v u o : α} (old : c.entries.get? k = some o) (copied : c.copy v = .ok u) :
    MadeIn c (.updated k v o) (c.entries.insert k u)
  | removed {k : κ} {o : α} (old : c.entries.get? k = some o) :
    MadeIn c (.removed k o) (c.entries.erase k)

end Change

namespace Cache

variable [DecidableEq κ] {tag : Registered ω κ α → τ} {heard : ω → List (τ × ListenerCall κ α)}
  {c : Cache ω κ α}

theorem notify_delivered (h : ∀ r ∈ c.listeners, r.HeardAs heard (tag r)) (x : Change κ α) (w : ω) :
    let y := (notify x.type x.key (some x.value) x.old).run (c, w)
    ∃ ys failure, Delivered c.listeners ys failure ∧
      heard y.2.2 = heard w ++ callsOf tag (x.event c.name) c.listeners ys ∧ EndsWith failure y.1 :=
  forEach_tell_delivered (x.event c.name) h w

end Cache

end EntryCache

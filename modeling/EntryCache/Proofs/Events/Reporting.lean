import EntryCache.Proofs.Cache.Listeners
import EntryCache.Proofs.Events.Delivery
import EntryCache.Proofs.Failures.Operations

namespace EntryCache

namespace Cache

open EntryCache.Action (Keeps)

variable {ω κ α β γ τ : Type} [DecidableEq κ] {tag : Registered ω κ α → τ}
  {heard : ω → List (τ × ListenerCall κ α)}
  {c : Cache ω κ α} {w w₁ : ω} {k : κ}

structure Overheard (tag : Registered ω κ α → τ) (heard : ω → List (τ × ListenerCall κ α))
    (c : Cache ω κ α) : Prop where
  listeners : ∀ r ∈ c.listeners, r.HeardAs heard (tag r)
  writer : ∀ wr ∈ c.writer?, wr.Leaves heard
  load : ∀ l ∈ c.loader?, ∀ k, (l.load k).Leaves heard
  loadAll : ∀ l ∈ c.loader, ∀ ks, (l.loadAll ks).Leaves heard

theorem Overheard.holds (h : c.Overheard tag heard) (es : FiniteMap κ α) (n : Statistics) :
    ({ c with entries := es, stats := n } : Cache ω κ α).Overheard tag heard :=
  ⟨h.listeners, h.writer, h.load, h.loadAll⟩

/-- What can come of an operation that makes one change at most: no listener is called and no entry
has changed, or the change that was made is delivered, and that decides how the operation ends. -/
inductive Reported (tag : Registered ω κ α → τ) (heard : ω → List (τ × ListenerCall κ α))
    (c : Cache ω κ α) (w : ω) : Except Error γ × (Cache ω κ α × ω) → Prop
  | silent {r : Except Error γ} {n : Statistics} {w₁ : ω} (quiet : heard w₁ = heard w) :
    Reported tag heard c w (r, ({ c with stats := n }, w₁))
  | told {r : Except Error γ} {x : Change κ α} {es : FiniteMap κ α} {n : Statistics} {w₁ : ω}
    {ys : List Reception}
    {failure : Option Error} (made : x.MadeIn c es) (delivered : Delivered c.listeners ys failure)
    (calls : heard w₁ = heard w ++ callsOf tag (x.event c.name) c.listeners ys)
    (ends : EndsWith failure r) :
    Reported tag heard c w (r, ({ c with entries := es, stats := n }, w₁))

namespace Reported

theorem map {x : Except Error β × (Cache ω κ α × ω)} (h : Reported tag heard c w x) (f : β → γ) :
    Reported tag heard c w (x.1.map f, x.2) := by
  cases h with
  | silent quiet => exact .silent quiet
  | told made delivered calls ends => exact .told made delivered calls (ends.map f)

theorem of_error {e : Error} {s : Cache ω κ α × ω}
    (h : Reported tag heard c w ((.error e : Except Error β), s)) :
    Reported tag heard c w ((.error e : Except Error γ), s) := by
  cases h with
  | silent quiet => exact .silent quiet
  | told made delivered calls ends => exact .told made delivered calls (ends.eq_some ▸ rfl)

theorem later {n : Statistics} {x : Except Error γ × (Cache ω κ α × ω)} (hw : heard w₁ = heard w)
    (h : Reported tag heard { c with stats := n } w₁ x) : Reported tag heard c w x := by
  cases h with
  | silent quiet => exact .silent (quiet.trans hw)
  | told made delivered calls ends =>
    refine .told ?_ delivered (hw ▸ calls) ends
    cases made with
    | created old copied => exact .created old copied
    | updated old copied => exact .updated old copied
    | removed old => exact .removed old

theorem overheard {x : Except Error γ × (Cache ω κ α × ω)} (h : Reported tag heard c w x)
    (hc : c.Overheard tag heard) : x.2.1.Overheard tag heard := by
  cases h with
  | silent _ => exact hc.holds c.entries _
  | told _ _ _ _ => exact hc.holds _ _

end Reported

theorem opened_cases (op : Op ω κ α γ) (s : Cache ω κ α × ω) :
    (ensureOpen >>= fun _ => op).run s = op.run s ∨
      (ensureOpen >>= fun _ => op).run s = (.error (closedError s.1.name), s) := by
  cases hclosed : s.1.closed with
  | true => exact .inr (Action.run_bind_of_error (run_ensureOpen_of_closed hclosed s.2))
  | false => exact .inl (Action.run_bind_of_ok (run_ensureOpen hclosed s.2))

abbrev Op.Reports (tag : Registered ω κ α → τ) (heard : ω → List (τ × ListenerCall κ α))
    (c : Cache ω κ α) (w : ω) (op : Op ω κ α γ) : Prop :=
  Reported tag heard c w (op.run (c, w))

namespace Op.Reports

theorem pure (x : γ) : Op.Reports tag heard c w (pure x) := .silent (n := c.stats) rfl

theorem then_pure {op : Op ω κ α β} (h : Op.Reports tag heard c w op) (f : β → γ) :
    Op.Reports tag heard c w (op >>= fun x => Pure.pure (f x)) := by
  rw [Op.Reports, Action.run_bind_pure]
  exact h.map f

theorem discard {op : Op ω κ α β} (h : Op.Reports tag heard c w op) :
    Op.Reports tag heard c w (discard op) :=
  h.then_pure fun _ => ()

theorem opened {op : Op ω κ α γ} (h : Op.Reports tag heard c w op) :
    Op.Reports tag heard c w (ensureOpen >>= fun _ => op) := by
  rw [Op.Reports]
  rcases opened_cases op (c, w) with hrun | hrun <;> rw [hrun]
  · exact h
  · exact .silent (n := c.stats) rfl

theorem looked {f : Cache ω κ α → β} {g : β → Op ω κ α γ} (h : Op.Reports tag heard c w (g (f c))) :
    Op.Reports tag heard c w (look f >>= g) := h

end Op.Reports

section

variable (hc : c.Overheard tag heard)
include hc

theorem notify_reported {x : Change κ α} {es : FiniteMap κ α} (hmade : x.MadeIn c es)
    (n : Statistics) (hw : heard w₁ = heard w) (f : Unit → γ) :
    let y := (notify x.type x.key (some x.value) x.old).run
      ({ c with entries := es, stats := n }, w₁)
    Reported tag heard c w (y.1.map f, y.2) := by
  obtain ⟨ys, failure, hdelivered, hcalls, hends⟩ := notify_delivered (hc.holds es n).listeners x w₁
  exact .told hmade hdelivered (hcalls.trans (by rw [hw])) (hends.map f)

theorem storeValue_reported (k : κ) (v : α) (w : ω) :
    Op.Reports tag heard c w (storeValue k v) := by
  obtain ⟨r, w₁, hrun, hw⟩ := writeThrough_leaves hc.writer k v w
  rw [Op.Reports]
  rcases r with e | u
  · rw [run_storeValue_of_refused hrun]
    exact .silent (n := c.stats) hw
  · cases hcopy : c.copy v with
    | error e =>
      rw [run_storeValue_of_no_copy hrun hcopy]
      exact .silent (n := c.stats) hw
    | ok u =>
      rw [run_storeValue_of_written hrun hcopy, Action.run_bind_pure]
      cases hk : c.entries.get? k with
      | none => exact notify_reported hc (Change.MadeIn.created hk hcopy) _ hw _
      | some o => exact notify_reported hc (Change.MadeIn.updated hk hcopy) _ hw _

theorem deleteValue_reported (k : κ) (w : ω) : Op.Reports tag heard c w (deleteValue k) := by
  obtain ⟨r, w₁, hrun, hw⟩ := deleteThrough_leaves hc.writer k w
  rw [Op.Reports]
  rcases r with e | u
  · rw [run_deleteValue_of_refused hrun]
    exact .silent (n := c.stats) hw
  · cases hk : c.entries.get? k with
    | none =>
      rw [run_deleteValue_of_absent hrun hk]
      exact .silent (n := c.stats) hw
    | some o =>
      rw [run_deleteValue_of_mapped hrun hk, Action.run_bind_pure]
      exact notify_reported hc (Change.MadeIn.removed hk) _ hw _

theorem readThrough_reported {l : Loader ω κ α} (hl : ∀ k, (l.load k).Leaves heard)
    (hk : c.entries.get? k = none) (w : ω) : let x := (readThrough k l).run (c, w)
    Reported tag heard c w x ∧ (x.1 = .ok none → x.2.1 = c ∧ heard x.2.2 = heard w) := by
  have hw := hl k w
  rcases hload : (l.load k).run w with ⟨e | _ | v, w₁⟩ <;> rw [hload] at hw
  · rw [run_readThrough_of_failed hload]
    exact ⟨.silent (n := c.stats) hw, nofun⟩
  · rw [run_readThrough_of_none hload]
    exact ⟨.silent (n := c.stats) hw, fun _ => ⟨rfl, hw⟩⟩
  · cases hcopy : c.copy v with
    | error e =>
      rw [run_readThrough_of_no_copy hload hcopy]
      exact ⟨.silent (n := c.stats) hw, nofun⟩
    | ok u =>
      rw [run_readThrough_of_some hload hcopy, Action.run_bind_pure]
      refine ⟨notify_reported hc (Change.MadeIn.created hk hcopy) c.stats hw _, fun hnone => ?_⟩
      rcases hx : ((notify .created k (some v) none).run (c.enter k u, w₁)).1 with e | x <;>
        rw [hx] at hnone <;>
        cases hnone

theorem get_reported (k : κ) (w : ω) :
    let x := (get k).run (c, w)
    Reported tag heard c w x ∧ (x.1 = .ok none → (∃ n, x.2.1 = { c with stats := n }) ∧
      heard x.2.2 = heard w) := by
  by_cases hclosed : c.closed = true
  · rw [get, Action.run_bind_of_error (run_ensureOpen_of_closed hclosed w)]
    refine ⟨.silent (n := c.stats) rfl, fun hnone => ?_⟩
    cases hnone
  · have hopen : c.closed = false := Bool.eq_false_iff.2 hclosed
    cases hk : c.entries.get? k with
    | some v =>
      obtain ⟨n, hn⟩ := run_get_of_mapped hopen hk w
      have hrun : (get k).run (c, w) = (((get k).run (c, w)).1, ({ c with stats := n }, w)) :=
        Prod.ext rfl hn
      rw [hrun]
      exact ⟨.silent rfl, fun _ => ⟨⟨n, rfl⟩, rfl⟩⟩
    | none =>
      rw [run_get_of_unmapped hopen hk]
      cases hl : c.loader? with
      | none => exact ⟨.silent rfl, fun _ => ⟨⟨_, rfl⟩, rfl⟩⟩
      | some l =>
        obtain ⟨hreported, hnone⟩ := readThrough_reported (hc.holds c.entries c.countMiss.stats)
          (hc.load l hl) hk w
        exact ⟨hreported.later rfl, fun h => ⟨⟨_, (hnone h).1⟩, (hnone h).2⟩⟩

omit hc in
theorem containsKey_reported (k : κ) (w : ω) : Op.Reports tag heard c w (containsKey k) :=
  .opened (.silent (n := c.stats) rfl)

theorem put_reported (k : κ) (v : α) (w : ω) : Op.Reports tag heard c w (put k v) :=
  .opened (.discard (storeValue_reported hc k v w))

theorem putIfAbsent_reported (k : κ) (v : α) (w : ω) :
    Op.Reports tag heard c w (putIfAbsent k v) := by
  refine .opened (.looked ?_)
  cases c.entries.contains k with
  | true => exact .pure false
  | false => exact (Op.Reports.discard (storeValue_reported hc k v w)).then_pure _

theorem removeIfEquals_reported [DecidableEq α] (k : κ) (old : α) (w : ω) :
    Op.Reports tag heard c w (removeIfEquals k old) := by
  refine .opened (.looked ?_)
  split
  · exact (Op.Reports.discard (deleteValue_reported hc k w)).then_pure _
  · exact .pure false

theorem replaceIfEquals_reported [DecidableEq α] (k : κ) (old new : α) (w : ω) :
    Op.Reports tag heard c w (replaceIfEquals k old new) := by
  refine .opened (.looked ?_)
  split
  · exact (Op.Reports.discard (storeValue_reported hc k new w)).then_pure _
  · exact .pure false

theorem getAndReplace_reported (k : κ) (v : α) (w : ω) :
    Op.Reports tag heard c w (getAndReplace k v) := by
  refine .opened (.looked ?_)
  cases c.entries.contains k with
  | true => exact storeValue_reported hc k v w
  | false => exact .pure none

theorem getOrPutWith_reported {compute : κ → Action ω α}
    (hcompute : (compute k).Leaves heard) (w : ω) :
    Op.Reports tag heard c w (getOrPutWith k compute) := by
  obtain ⟨hget, hnone⟩ := get_reported hc k w
  rw [Op.Reports, getOrPutWith]
  rcases hrun : (get k).run (c, w) with ⟨e | _ | v, c₁, w₁⟩ <;> rw [hrun] at hget hnone
  · rw [Action.run_bind_of_error hrun]
    exact hget.of_error
  · rw [Action.run_bind_of_ok hrun]
    obtain ⟨⟨n, rfl⟩, hw⟩ := hnone rfl
    have hw' := hcompute w₁
    simp only
    rcases hcall : (compute k).run w₁ with ⟨e | v, w₂⟩ <;> rw [hcall] at hw'
    · rw [Action.run_bind_of_error (by rw [Action.run_beside, hcall])]
      exact .silent (hw'.trans hw)
    · rw [Action.run_bind_of_ok (by rw [Action.run_beside, hcall])]
      exact .later (hw'.trans hw) ((put_reported (hc.holds c.entries n) k v w₂).then_pure _)
  · rw [Action.run_bind_of_ok hrun]
    exact hget.map fun _ => v

omit hc in
theorem listEntries_reported (w : ω) : Op.Reports tag heard c w listEntries := by
  have hcollect : ∀ ps : List (κ × α), Keeps (· = (c, w)) (collect entryOf ps) := fun ps => by
    induction ps with
    | nil => exact .pure []
    | cons p ps ih =>
      refine ((keeps_copied p.2).bind fun u => .pure _).bind fun q => ?_
      exact ih.bind fun qs => .pure _
  have hsame : (listEntries.run (c, w)).2 = (c, w) :=
    (keeps_opened ((keeps_look _).bind fun ps => hcollect ps)) (c, w) rfl
  have hrun : listEntries.run (c, w) = ((listEntries.run (c, w)).1, (c, w)) := Prod.ext rfl hsame
  rw [Op.Reports, hrun]
  exact .silent (n := c.stats) rfl

theorem apply_reported (k : κ) (o : Outcome α) (w : ω) : Op.Reports tag heard c w (apply k o) := by
  cases o with
  | nothing => exact .pure ()
  | accessed => exact .silent rfl
  | loaded v => exact .discard (storeValue_reported hc k v w)
  | created v => exact .discard (storeValue_reported hc k v w)
  | updated v => exact .discard (storeValue_reported hc k v w)
  | removed => exact .discard (deleteValue_reported hc k w)

theorem commit_reported (k : κ) (staged : StagedEntry α) (w : ω) :
    Op.Reports tag heard c w (commit k staged) := by
  rw [Op.Reports, commit]
  cases staged.outcome with
  | error e => exact .silent (n := c.stats) rfl
  | ok o => exact apply_reported hc k o w

theorem runStaged_unheard (k : κ) (p : Processor α β) (w : ω) :
    ∃ r w₁, (runStaged k p).run (c, w) = (r, (c, w₁)) ∧ heard w₁ = heard w := by
  cases hclosed : c.closed with
  | true => exact ⟨_, w, Action.run_bind_of_error (run_ensureOpen_of_closed hclosed w), rfl⟩
  | false =>
    rw [run_runStaged hclosed]
    cases current k c with
    | error e => exact ⟨_, w, rfl, rfl⟩
    | ok v => exact ⟨_, _, rfl, run_leaves hc.load p v⟩

theorem invokeRaw_reported (k : κ) (p : Processor α β) (w : ω) :
    let x := invokeRaw k p (c, w)
    Reported tag heard c w (x.1.result, x.2) := by
  obtain ⟨r, w₁, hrun, hw⟩ := runStaged_unheard hc k p w
  simp only
  rw [invokeRaw_staged, hrun]
  rcases r with e | ⟨e | b, staged⟩
  · exact .silent (n := c.stats) hw
  · exact .silent (n := c.stats) hw
  · exact .later hw (commit_reported hc k staged w₁)

theorem invoke_reported (k : κ) (p : Processor α β) (w : ω) :
    Op.Reports tag heard c w (invoke k p) := by
  obtain ⟨r, w₁, hrun, hw⟩ := runStaged_unheard hc k p w
  rw [Op.Reports, run_invoke_staged, hrun]
  rcases r with e | ⟨e | b, staged⟩
  · exact .silent (n := c.stats) hw
  · exact .silent (n := c.stats) hw
  · exact .later hw ((commit_reported hc k staged w₁).then_pure fun _ => b)

end

/-- What can come of a batch. After a change that is delivered in full it goes on, and otherwise it
ends there. -/
inductive ReportedEach (tag : Registered ω κ α → τ) (heard : ω → List (τ × ListenerCall κ α)) :
    Cache ω κ α → ω → Except Error γ × (Cache ω κ α × ω) → Prop
  | done {c : Cache ω κ α} {w : ω} (x : γ) : ReportedEach tag heard c w (.ok x, (c, w))
  | failed {c : Cache ω κ α} {w : ω} {e : Error} {s : Cache ω κ α × ω}
    (last : Reported tag heard c w ((.error e : Except Error Unit), s)) :
    ReportedEach tag heard c w (.error e, s)
  | step {c : Cache ω κ α} {w : ω} {s : Cache ω κ α × ω} {x : Except Error γ × (Cache ω κ α × ω)}
    (first : Reported tag heard c w ((.ok () : Except Error Unit), s))
    (rest : ReportedEach tag heard s.1 s.2 x) : ReportedEach tag heard c w x

namespace ReportedEach

theorem map {x : Except Error β × (Cache ω κ α × ω)} (h : ReportedEach tag heard c w x)
    (f : β → γ) : ReportedEach tag heard c w (x.1.map f, x.2) := by
  induction h with
  | done x => exact .done (f x)
  | failed last => exact .failed last
  | step first rest ih => exact .step first ih

theorem opened {op : Op ω κ α γ} (h : ReportedEach tag heard c w (op.run (c, w))) :
    ReportedEach tag heard c w ((ensureOpen >>= fun _ => op).run (c, w)) := by
  rcases opened_cases op (c, w) with hrun | hrun <;> rw [hrun]
  · exact h
  · exact .failed (.silent (n := c.stats) rfl)

theorem forEach {f : β → Op ω κ α Unit}
    (hf : ∀ {c : Cache ω κ α}, c.Overheard tag heard → ∀ x w, Op.Reports tag heard c w (f x))
    (hc : c.Overheard tag heard) (xs : List β) (w : ω) :
    ReportedEach tag heard c w ((Action.forEach f xs).run (c, w)) := by
  induction xs generalizing c w with
  | nil => exact .done ()
  | cons x xs ih =>
    have hx := hf hc x w
    rw [Op.Reports] at hx
    rw [Action.forEach]
    rcases hrun : (f x).run (c, w) with ⟨e | u, s⟩ <;> rw [hrun] at hx
    · rw [Action.run_bind_of_error hrun]
      exact .failed hx
    · rw [Action.run_bind_of_ok hrun]
      exact .step hx (ih (hx.overheard hc) s.2)

theorem getEach (hc : c.Overheard tag heard) (ks : List κ) (found : FiniteMap κ α) (w : ω) :
    ReportedEach tag heard c w ((getEach found ks).run (c, w)) := by
  induction ks generalizing c found w with
  | nil => exact .done found
  | cons k ks ih =>
    have hk := (get_reported hc k w).1
    rw [Cache.getEach]
    rcases hrun : (get k).run (c, w) with ⟨e | v, s⟩ <;> rw [hrun] at hk
    · rw [Action.run_bind_of_error hrun]
      exact .failed hk.of_error
    · rw [Action.run_bind_of_ok hrun]
      cases v with
      | some v => exact .step (hk.map fun _ => ()) (ih (hk.overheard hc) _ s.2)
      | none => exact .step (hk.map fun _ => ()) (ih (hk.overheard hc) _ s.2)

end ReportedEach

def Unheard (heard : ω → List (τ × ListenerCall κ α)) (s t : Cache ω κ α × ω) : Prop :=
  t.1.loader = s.1.loader ∧ heard t.2 = heard s.2

theorem loadInto_unheard (hc : c.Overheard tag heard) (keys : List κ) (all : Bool) (w : ω) :
    heard ((loadInto keys all).run (c, w)).2.2 = heard w := by
  have hsome : ∀ l ∈ c.loader, ∀ ks, Keeps (Unheard heard (c, w))
      (((l.loadAll ks).mapError (·.attributeTo .loader)).beside : Op ω κ α (FiniteMap κ α)) :=
        fun l hl ks =>
    .beside fun c' => .mapError _ fun w' h => ⟨h.1, (hc.loadAll l hl ks w').trans h.2⟩
  have hkeeps : Keeps (Unheard heard (c, w)) (loadInto keys all) := by
    apply keeps_look_bind
    intro c' w' h
    cases hl : c'.loader with
    | none => exact h
    | some l =>
      refine Keeps.bind (I := Unheard heard (c, w)) (keeps_look _) (fun ks => ?_) (c', w') h
      refine (hsome l (h.1.symm.trans hl) ks).bind fun m => .forEach fun p _ => ?_
      exact (keeps_copied p.2).bind fun stored => fun s hs => hs
  exact (hkeeps (c, w) ⟨rfl, rfl⟩).2

theorem opened_unheard {op : Op ω κ α γ} (h : heard (op.run (c, w)).2.2 = heard w) :
    heard ((ensureOpen >>= fun _ => op).run (c, w)).2.2 = heard w := by
  rcases opened_cases op (c, w) with hrun | hrun <;> rw [hrun]
  exact h

theorem loadAll_unheard (hc : c.Overheard tag heard) {listener : Option (CompletionListener ω)}
    (hl : ∀ l ∈ listener, l.Leaves heard) (keys : List κ) (all : Bool) (w : ω) :
    heard ((loadAll keys all listener).run (c, w)).2.2 = heard w := by
  have hinto := loadInto_unheard hc keys all w
  apply opened_unheard
  rw [Action.run_bind_of_ok (Action.run_attempt ..)]
  rcases hrun : (loadInto keys all).run (c, w) with ⟨r, c₁, w₁⟩
  rw [hrun] at hinto
  cases listener with
  | none => exact hinto
  | some l =>
    cases r with
    | ok u => exact ((hl l rfl).completes w₁).trans hinto
    | error e => exact ((hl l rfl).excepts e w₁).trans hinto

theorem registerListener_unheard {config : ListenerConfiguration ω κ α}
    (hlistener : ∀ w, heard (config.listener.create w).2 = heard w)
    (hfilter : ∀ g ∈ config.filter, ∀ w, heard (g.create w).2 = heard w)
    (handle : ListenerHandle) (w : ω) :
    heard ((registerListener handle config).run (c, w)).2.2 = heard w := by
  cases hclosed : c.closed with
  | true => rw [registerListener, Action.run_bind_of_error (run_ensureOpen_of_closed hclosed w)]
  | false =>
    by_cases hknown : handle ∈ c.handles
    · rw [run_registerListener_of_known hclosed hknown]
    · rw [run_registerListener_of_new hclosed hknown]
      simp only [enlist, createOption]
      cases hg : config.filter with
      | none => exact hlistener w
      | some g => exact (hfilter g hg _).trans (hlistener w)

namespace Operation

def Offstage (heard : ω → List (τ × ListenerCall κ α)) : Operation ω κ α β → Prop
  | .loadAll _ _ listener => ∀ l ∈ listener, l.Leaves heard
  | .getOrPutWith k compute => (compute k).Leaves heard
  | .register _ config =>
    (∀ w, heard (config.listener.create w).2 = heard w) ∧ ∀ g ∈ config.filter, ∀ w,
      heard (g.create w).2 = heard w
  | _ => True

/-- An operation on one key reports its change, and so does a batch for each of its keys; no other
operation calls a listener. -/
def Reports [DecidableEq α] (tag : Registered ω κ α → τ) (heard : ω → List (τ × ListenerCall κ α))
    (op : Operation ω κ α β) (s : Cache ω κ α × ω) : Prop :=
  let x := op.run id s
  match op with
  | .getAll _ | .putAll _ | .removeKeys _ | .removeAll => ReportedEach tag heard s.1 s.2 x
  | .invokeAll ks p =>
    ∃ rs, x.1 = .ok (.outputs rs) ∧ x.2 = (Cache.invokeAll p ks s).2 ∧ ∀ before k after,
      ks = before ++ k :: after →
      let t := (Cache.invokeAll p before s).2
      let y := (Cache.invoke k (p k)).run t
      rs[before.length]? = some (k, y.1) ∧ Reported tag heard t.1 t.2 y
  | .invokeRaw k p =>
    let y := Cache.invokeRaw k p s
    x = (.ok (.raw y.1), y.2) ∧ Reported tag heard s.1 s.2 (y.1.result, y.2)
  | .loadAll _ _ _ | .clear | .register _ _ | .deregister _ | .clearStatistics | .close =>
    heard x.2.2 = heard s.2
  | _ => Reported tag heard s.1 s.2 x

end Operation

theorem operation_reported [DecidableEq α] (hc : c.Overheard tag heard) {op : Operation ω κ α β}
    (hop : op.Offstage heard) (w : ω) : op.Reports tag heard (c, w) := by
  have hquiet {γ : Type} {f : γ → Reply κ α β} {op : Op ω κ α γ}
    (h : heard (op.run (c, w)).2.2 = heard w) :
      heard ((op.as f).run (c, w)).2.2 = heard w := by rwa [Op.run_as]
  have heach {γ : Type} {f : γ → Reply κ α β} {op : Op ω κ α γ}
    (h : ReportedEach tag heard c w (op.run (c, w))) :
      ReportedEach tag heard c w ((op.as f).run (c, w)) := by
    rw [Op.run_as]
    exact h.map f
  cases op with
  | get k => exact Op.Reports.then_pure (get_reported hc k w).1 _
  | containsKey k => exact (containsKey_reported k w).then_pure _
  | put k v => exact (put_reported hc k v w).then_pure _
  | getAndPut k v => exact Op.Reports.then_pure (.opened (storeValue_reported hc k v w)) _
  | putIfAbsent k v => exact (putIfAbsent_reported hc k v w).then_pure _
  | remove k => exact Op.Reports.then_pure (.opened ((deleteValue_reported hc k w).then_pure _)) _
  | removeIfEquals k old => exact (removeIfEquals_reported hc k old w).then_pure _
  | getAndRemove k => exact Op.Reports.then_pure (.opened (deleteValue_reported hc k w)) _
  | replaceIfEquals k old new => exact (replaceIfEquals_reported hc k old new w).then_pure _
  | replace k v => exact ((getAndReplace_reported hc k v w).then_pure _).then_pure _
  | getAndReplace k v => exact (getAndReplace_reported hc k v w).then_pure _
  | getOrPutWith k compute => exact (getOrPutWith_reported hc hop w).then_pure _
  | entries => exact (listEntries_reported w).then_pure _
  | invoke k p => exact (invoke_reported hc k p w).then_pure _
  | invokeRaw k p => exact ⟨rfl, invokeRaw_reported hc k p w⟩
  | invokeAll ks p =>
    refine ⟨_, rfl, rfl, ?_⟩
    rintro before k after rfl
    have hkeeps : ∀ k, Keeps (fun s : Cache ω κ α × ω => s.1.Overheard tag heard)
      (invoke k (p k)) :=
      fun k s hs => (invoke_reported hs k (p k) s.2).overheard hs
    have ht := keeps_resultsOf hkeeps before (c, w) hc
    exact ⟨resultsOf_getElem? before k after (c, w), invoke_reported ht k (p k) _⟩
  | getAll ks => exact heach (.getEach hc ks ∅ w)
  | putAll es =>
    exact heach
      (.opened (.forEach (fun hc p w => .discard (storeValue_reported hc p.1 p.2 w)) hc es w))
  | removeKeys ks =>
    exact heach (.opened (.forEach (fun hc k w => .discard (deleteValue_reported hc k w)) hc ks w))
  | removeAll =>
    exact heach (.opened (.forEach (fun hc k w => .discard (deleteValue_reported hc k w)) hc
      c.entries.keys w))
  | loadAll keys all listener => exact hquiet (loadAll_unheard hc hop keys all w)
  | register handle config => exact hquiet (registerListener_unheard hop.1 hop.2 handle w)
  | deregister handle => exact hquiet (opened_unheard rfl)
  | clear => exact hquiet (opened_unheard rfl)
  | clearStatistics => rfl
  | close => rfl

/-- A change is delivered to the listeners in the order of their registration, up to the first at
which something fails, and so is every change that an operation makes; what fails there is what the
operation fails with. -/
theorem changes_delivered [DecidableEq α] (hc : c.Overheard tag heard) :
    (∀ (x : Change κ α) (w : ω),
      let y := (notify x.type x.key (some x.value) x.old).run (c, w)
      ∃ ys failure, Delivered c.listeners ys failure ∧
        heard y.2.2 = heard w ++ callsOf tag (x.event c.name) c.listeners ys ∧
        EndsWith failure y.1) ∧
      ∀ op : Operation ω κ α β, op.Offstage heard → ∀ w, op.Reports tag heard (c, w) :=
  ⟨notify_delivered hc.listeners, fun _ hop w => operation_reported hc hop w⟩

end Cache

abbrev Roll (κ α : Type) : Type := List (ListenerHandle × ListenerCall κ α)

namespace Roll

variable {κ α : Type}

def hook (i : Nat) (answer : Except Error Unit) (t : EventType) (es : List (Event κ α)) :
    Action (Roll κ α) Unit :=
  fun roll => (answer, roll ++ [(.initial i, .hook t es answer)])

def listener (i : Nat) (answer : Except Error Unit) : Listener (Roll κ α) κ α :=
  ⟨hook i answer .created, hook i answer .updated, hook i answer .removed, hook i answer .expired⟩

def filter (i : Nat) (answer : Except Error Bool) : EventFilter (Roll κ α) κ α := fun e roll =>
  (answer, roll ++ [(.initial i, .filter e answer)])

def config (i : Nat) (passes : Option (Except Error Bool)) (answer : Except Error Unit)
    (withOld : Bool) : ListenerConfiguration (Roll κ α) κ α :=
  ⟨.singleton i (listener i answer), passes.map fun b => .singleton i (filter i b), withOld, true⟩

theorem heardAs (i : Nat) (c : ListenerConfiguration (Roll κ α) κ α)
    (passes : Option (Except Error Bool)) (answer : Except Error Unit) :
    Registered.HeardAs id (.initial i)
      ⟨.initial i, c, listener i answer, passes.map (filter i)⟩ where
  hooks t es := by cases t <;> exact fun _ => rfl
  filters g hg e := by
    obtain ⟨b, -, rfl⟩ := Option.map_eq_some_iff.1 hg
    exact fun _ => rfl

end Roll

theorem Cache.changes_delivered_stopped :
    let full : Error := .cache "full"
    let config : Configuration (Roll Nat Nat) Nat Nat :=
      ⟨default, [Roll.config 0 (some (.ok false)) (.ok ()) true,
        Roll.config 1 (some (.ok true)) (.ok ()) true,
        Roll.config 2 none (.error full) false,
          Roll.config 3 none (.ok ()) true], none, none, .singleton 4 .eternal⟩
    let c := (create "c" config .ok []).1.enter 1 10
    let op : Operation (Roll Nat Nat) Nat Nat Unit := .put 1 11
    let x := op.run id (c, [])
    let e (old : Option Nat) : Event Nat Nat := ⟨"c", .updated, 1, some 11, old⟩
    op.Reports Registered.handle id (c, []) ∧ x.1 = .error (.wrapped .listener full.message full) ∧
      x.2.2 = [(.initial 0, .filter (e (some 10)) (.ok false)),
        (.initial 1, .filter (e (some 10)) (.ok true)),
        (.initial 1, .hook .updated [e (some 10)] (.ok ())),
          (.initial 2, .hook .updated [e none] (.error full))] := by
  intro full config c op x e
  have hc : c.Overheard Registered.handle id := by
    refine ⟨?_, nofun, nofun, nofun⟩
    exact List.forall_mem_cons.2 ⟨Roll.heardAs 0 _ (some (.ok false)) _, List.forall_mem_cons.2
      ⟨Roll.heardAs 1 _ (some (.ok true)) _, List.forall_mem_cons.2
        ⟨Roll.heardAs 2 _ none _, List.forall_mem_singleton.2 (Roll.heardAs 3 _ none _)⟩⟩⟩
  have hop : op.Offstage id := trivial
  exact ⟨(changes_delivered hc).2 op hop [], rfl, rfl⟩

end EntryCache

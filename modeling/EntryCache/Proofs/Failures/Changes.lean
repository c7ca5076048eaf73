import EntryCache.Proofs.Cache.Reading
import EntryCache.Proofs.Failures.Surfacing

namespace EntryCache

variable {σ τ ω κ α β γ : Type} [DecidableEq κ]

def Action.Logs (log : σ → List τ) (entry : Except Error γ → τ) (a : Action σ γ) : Prop :=
  ∀ s, log (a.run s).2 = log s ++ [entry (a.run s).1]

def ended (r : Except Error γ) : Except Error Unit := r.map fun _ => ()

def WriterCall.toHold (k : κ) : Option α → WriterCall κ α
  | some v => .write k v
  | none => .delete k

structure Writer.Logs (asked : ω → List (WriterCall κ α × Except Error Unit))
    (wr : Writer ω κ α) : Prop where
  write : ∀ k v, (wr.write k v).Logs asked (.write k v, ·)
  delete : ∀ k, (wr.delete k).Logs asked (.delete k, ·)

structure Registered.Logs (told : ω → List (Except Error Unit)) (r : Registered ω κ α) : Prop where
  hooks : ∀ t es, (r.listener.dispatch t es).Logs told ended
  filters : ∀ g ∈ r.filter, ∀ e, (g e).Logs told ended

def FailsWith (answers : List (Except Error Unit)) (r : Except Error γ) : Prop :=
  ∀ e, .error e ∈ answers → ∃ err, r = .error err ∧ err.rootCause = e.rootCause

namespace FailsWith

variable {xs ys : List (Except Error Unit)} {e : Error}

theorem nil (r : Except Error γ) : FailsWith [] r := fun _ h => nomatch h

theorem of_error (h : FailsWith xs (.error e : Except Error β)) :
    FailsWith xs (.error e : Except Error γ) := by
  intro e' he'
  obtain ⟨err, ⟨⟩, hroot⟩ := h e' he'
  exact ⟨e, rfl, hroot⟩

theorem map {r : Except Error β} (h : FailsWith xs r) (f : β → γ) : FailsWith xs (r.map f) := by
  intro e he
  obtain ⟨err, rfl, hroot⟩ := h e he
  exact ⟨err, rfl, hroot⟩

theorem append {x : β} {r : Except Error γ} (hx : FailsWith xs (.ok x)) (hy : FailsWith ys r) :
    FailsWith (xs ++ ys) r := by
  intro e he
  rcases List.mem_append.1 he with he | he
  · obtain ⟨err, ⟨⟩, -⟩ := hx e he
  · exact hy e he

end FailsWith

namespace Action

def Telling (told : σ → List (Except Error Unit)) (a : Action σ γ) : Prop :=
  ∀ s, ∃ answers, told (a.run s).2 = told s ++ answers ∧ FailsWith answers (a.run s).1

variable {told : σ → List (Except Error Unit)}

omit [DecidableEq κ] in
theorem Logs.telling {a : Action σ γ} (h : a.Logs told ended) : a.Telling told := by
  intro s
  refine ⟨_, h s, fun e he => ?_⟩
  rw [List.mem_singleton] at he
  rcases hr : (a.run s).1 with e' | x <;> rw [hr] at he
  · cases he
    exact ⟨e, rfl, rfl⟩
  · cases he

namespace Telling

omit [DecidableEq κ]

theorem pure (x : γ) : (pure x : Action σ γ).Telling told :=
  fun s => ⟨[], (List.append_nil (told s)).symm, .nil _⟩

theorem bind {a : Action σ β} {f : β → Action σ γ} (ha : a.Telling told)
    (hf : ∀ x, (f x).Telling told) : (a >>= f).Telling told := by
  intro s
  obtain ⟨xs, hxs, hfails⟩ := ha s
  rcases hrun : a.run s with ⟨e | x, t⟩ <;> rw [hrun] at hxs hfails
  · rw [run_bind_of_error hrun]
    exact ⟨xs, hxs, hfails.of_error⟩
  · rw [run_bind_of_ok hrun]
    obtain ⟨ys, hys, hrest⟩ := hf x t
    exact ⟨xs ++ ys, by rw [hys, hxs, List.append_assoc], hfails.append hrest⟩

theorem forEach {f : β → Action σ Unit} {xs : List β} (h : ∀ x ∈ xs, (f x).Telling told) :
    (forEach f xs).Telling told := by
  induction xs with
  | nil => exact pure ()
  | cons x xs ih =>
    rw [List.forall_mem_cons] at h
    exact h.1.bind fun _ => ih h.2

theorem attributed {a : Action σ γ} (h : a.Telling told) (x : Component) :
    (a.mapError (·.attributeTo x)).Telling told := by
  intro s
  obtain ⟨xs, hxs, hfails⟩ := h s
  rw [run_mapError]
  refine ⟨xs, hxs, fun e he => ?_⟩
  obtain ⟨err, herr, hroot⟩ := hfails e he
  rw [herr]
  exact ⟨_, rfl, (Error.rootCause_attributeTo x err).trans hroot⟩

end Telling

end Action

namespace Cache

variable {asked : ω → List (WriterCall κ α × Except Error Unit)}
  {told : ω → List (Except Error Unit)}
  {c : Cache ω κ α} {w : ω} {k : κ} {v : α} {new : Option α}

/-- The calls of the writer are on one record, those of filters and hooks on another; a loader is on
neither. -/
structure Minuted (asked : ω → List (WriterCall κ α × Except Error Unit))
    (told : ω → List (Except Error Unit)) (c : Cache ω κ α) : Prop where
  writer : ∀ wr ∈ c.writer?, wr.Logs asked ∧ wr.Leaves told
  listeners : ∀ r ∈ c.listeners, r.Logs told ∧ r.Leaves asked
  loader : ∀ l ∈ c.loader?, ∀ k, (l.load k).Leaves asked ∧ (l.load k).Leaves told

omit [DecidableEq κ] in
theorem tell_telling {r : Registered ω κ α} (h : r.Logs told) (e : Event κ α) :
    (tell r e).Telling told := by
  have haccepts : (accepts r e).Telling told := by
    unfold accepts
    split
    · next g hg => exact (h.filters g hg e).telling
    · exact .pure true
  refine haccepts.bind fun b => ?_
  cases b with
  | true => exact (h.hooks e.type [e]).telling.attributed .listener
  | false => exact .pure ()

theorem notify_telling (h : ∀ r ∈ c.listeners, r.Logs told) (t : EventType) (k : κ)
    (value old : Option α) (w : ω) : let x := (notify t k value old).run (c, w)
    ∃ answers, told x.2.2 = told w ++ answers ∧ FailsWith answers x.1 := by
  have hall : (Action.forEach (fun r => tell r (eventFor c.name t k value old r))
    c.listeners).Telling told :=
    .forEach fun r hr => tell_telling (h r hr) _
  exact hall w

theorem tellStored_eq_notify (k : κ) (v : α) (old : Option α) :
    (tellStored k v old : Op ω κ α Unit) = notify (storedType old) k (some v) old := by
  cases old <;> rfl

def accepted (k : κ) (new : Option α) (c : Cache ω κ α) :
    List (WriterCall κ α × Except Error Unit) :=
  match c.writer? with
  | some _ => [(.toHold k new, .ok ())]
  | none => []

theorem mem_accepted {x : WriterCall κ α × Except Error Unit} (h : x ∈ c.accepted k new) :
    x = (.toHold k new, .ok ()) := by
  unfold accepted at h
  split at h
  · exact List.mem_singleton.1 h
  · cases h

inductive Consulted (asked : ω → List (WriterCall κ α × Except Error Unit))
    (told : ω → List (Except Error Unit)) (k : κ) (new : Option α) (c : Cache ω κ α) (w : ω) :
    Except Error Unit × (Cache ω κ α × ω) → Prop
  | accepted {w₁ : ω} (hasked : asked w₁ = asked w ++ c.accepted k new) (htold : told w₁ = told w) :
    Consulted asked told k new c w (.ok (), (c, w₁))
  | refused {w₁ : ω} {e : Error} (hasked : asked w₁ = asked w ++ [(.toHold k new, .error e)])
    (htold : told w₁ = told w) :
    Consulted asked told k new c w (.error (e.attributeTo .writer), (c, w₁))

theorem consulted_call {wr : Writer ω κ α} (hwr : c.writer? = some wr) {call : Action ω Unit}
    (hlogs : call.Logs asked (.toHold k new, ·)) (hleaves : call.Leaves told) (w : ω) :
    Consulted asked told k new c w
      ((call.run w).1.mapError (·.attributeTo .writer), (c, (call.run w).2)) := by
  have hasked := hlogs w
  have htold := hleaves w
  rcases hrun : call.run w with ⟨e | x, w₁⟩ <;> rw [hrun] at hasked htold
  · exact .refused hasked htold
  · have haccepted : c.accepted k new = [(.toHold k new, .ok ())] := by rw [Cache.accepted, hwr]
    rw [← haccepted] at hasked
    exact .accepted hasked htold

theorem consulted_nobody (hwr : c.writer? = none) (w : ω) :
    Consulted asked told k new c w (.ok (), (c, w)) := by
  have haccepted : c.accepted k new = [] := by rw [Cache.accepted, hwr]
  exact .accepted (by rw [haccepted, List.append_nil]) rfl

theorem writeThrough_consulted (h : ∀ wr ∈ c.writer?, wr.Logs asked ∧ wr.Leaves told) (k : κ)
    (v : α) (w : ω) : Consulted asked told k (some v) c w ((writeThrough k v).run (c, w)) := by
  rw [run_writeThrough]
  cases hwr : c.writer? with
  | none => exact consulted_nobody hwr w
  | some wr =>
    obtain ⟨hlogs, hleaves⟩ := h wr hwr
    exact consulted_call hwr (hlogs.write k v) (hleaves.write k v) w

theorem deleteThrough_consulted (h : ∀ wr ∈ c.writer?, wr.Logs asked ∧ wr.Leaves told)
    (k : κ) (w : ω) : Consulted asked told k none c w ((deleteThrough k).run (c, w)) := by
  rw [run_deleteThrough]
  cases hwr : c.writer? with
  | none => exact consulted_nobody hwr w
  | some wr =>
    obtain ⟨hlogs, hleaves⟩ := h wr hwr
    exact consulted_call hwr (hlogs.delete k) (hleaves.delete k) w

def holding (k : κ) (new : Option α) (c : Cache ω κ α) : Cache ω κ α :=
  match new with
  | some v => (c.enter k v).countPut
  | none => c.without k

theorem get?_holding (k : κ) (new : Option α) (c : Cache ω κ α) :
    (c.holding k new).entries.get? k = new := by
  cases new with
  | some v => exact FiniteMap.get?_insert_self ..
  | none => exact FiniteMap.get?_erase_self ..

theorem get?_holding_of_ne {j : κ} (h : j ≠ k) (new : Option α) (c : Cache ω κ α) :
    (c.holding k new).entries.get? j = c.entries.get? j := by
  cases new with
  | some v => exact FiniteMap.get?_insert_of_ne (Ne.symm h)
  | none => exact FiniteMap.get?_erase_of_ne (Ne.symm h)

theorem stats_holding (k : κ) (new : Option α) (c : Cache ω κ α) :
    (c.holding k new).stats = if new.isSome then { c.stats with puts := c.stats.puts + 1 }
      else { c.stats with removals := c.stats.removals + 1 } := by
  cases new <;> rfl

/-- What can become of an operation that would have a key hold `new`. -/
inductive Settled (asked : ω → List (WriterCall κ α × Except Error Unit))
    (told : ω → List (Except Error Unit))
    (k : κ) (new : Option α) (c : Cache ω κ α) (w : ω) : Except Error γ × (Cache ω κ α × ω) → Prop
  /-- No listener is told, as no entry changes; the writer may have accepted the removal of what was
  not there. -/
  | idle {r : Except Error γ} {n : Statistics} {w₁ : ω}
    {calls : List (WriterCall κ α × Except Error Unit)}
    (hheld : ∀ y, r = .ok y → c.entries.get? k = new) (hasked : asked w₁ = asked w ++ calls)
    (hcalls : ∀ x ∈ calls, x = (.toHold k new, .ok ())) (htold : told w₁ = told w) :
    Settled asked told k new c w (r, ({ c with stats := n }, w₁))
  | refused {w₁ : ω} {e : Error} (hasked : asked w₁ = asked w ++ [(.toHold k new, .error e)])
    (htold : told w₁ = told w) :
    Settled asked told k new c w (.error (e.attributeTo .writer), (c, w₁))
  | changed {r : Except Error γ} {w₁ : ω} {answers : List (Except Error Unit)}
    (hasked : asked w₁ = asked w ++ c.accepted k new) (htold : told w₁ = told w ++ answers)
    (hfails : FailsWith answers r) : Settled asked told k new c w (r, (c.holding k new, w₁))

theorem notify_settled (hc : c.Minuted asked told) {w₁ : ω}
    (hasked : asked w₁ = asked w ++ c.accepted k new)
    (htold : told w₁ = told w) (t : EventType) (value old : Option α) (f : Unit → γ) :
    let x := (notify t k value old).run (c.holding k new, w₁)
    Settled asked told k new c w (x.1.map f, x.2) := by
  have hlisteners : (c.holding k new).listeners = c.listeners := by cases new <;> rfl
  have hl : ∀ r ∈ (c.holding k new).listeners, r.Logs told ∧ r.Leaves asked :=
    hlisteners ▸ hc.listeners
  obtain ⟨answers, hanswers, hfails⟩ := notify_telling (fun r hr => (hl r hr).1) t k value old w₁
  have hleaves := notify_leaves (fun r hr => (hl r hr).2) t k value old w₁
  exact .changed (hleaves.trans hasked) (hanswers.trans (by rw [htold])) (hfails.map f)

theorem storeValue_settled (hc : c.Minuted asked told) (hcopy : c.copy v = .ok v) (k : κ) (w : ω) :
    Settled asked told k (some v) c w ((storeValue k v).run (c, w)) := by
  have hwrite := writeThrough_consulted hc.writer k v w
  generalize hrun : (writeThrough k v).run (c, w) = x at hwrite
  cases hwrite with
  | refused hasked htold =>
    rw [run_storeValue_of_refused hrun]
    exact .refused hasked htold
  | accepted hasked htold =>
    rw [run_storeValue_of_written hrun hcopy, tellStored_eq_notify, Action.run_bind_pure]
    exact notify_settled hc hasked htold _ _ _ _

theorem deleteValue_settled (hc : c.Minuted asked told) (k : κ) (w : ω) :
    Settled asked told k none c w ((deleteValue k).run (c, w)) := by
  have hdelete := deleteThrough_consulted hc.writer k w
  generalize hrun : (deleteThrough k).run (c, w) = x at hdelete
  cases hdelete with
  | refused hasked htold =>
    rw [run_deleteValue_of_refused hrun]
    exact .refused hasked htold
  | accepted hasked htold =>
    cases hold : c.entries.get? k with
    | none =>
      rw [run_deleteValue_of_absent hrun hold]
      exact .idle (n := c.stats) (fun _ _ => hold) hasked (fun _ => mem_accepted) htold
    | some o =>
      rw [run_deleteValue_of_mapped hrun hold, Action.run_bind_pure]
      exact notify_settled hc hasked htold _ _ _ _

namespace Settled

theorem map {x : Except Error β × (Cache ω κ α × ω)} (h : Settled asked told k new c w x)
    (f : β → γ) : Settled asked told k new c w (x.1.map f, x.2) := by
  cases h with
  | @idle r _ _ _ hheld hasked hcalls htold =>
    refine .idle (fun y hy => ?_) hasked hcalls htold
    rcases r with e | x
    · cases hy
    · exact hheld x rfl
  | refused hasked htold => exact .refused hasked htold
  | changed hasked htold hfails => exact .changed hasked htold (hfails.map f)

theorem later {w₁ : ω} {x : Except Error γ × (Cache ω κ α × ω)} (hasked : asked w₁ = asked w)
    (htold : told w₁ = told w)
    (h : Settled asked told k new c w₁ x) : Settled asked told k new c w x := by
  cases h with
  | idle hheld ha hcalls ht => exact .idle hheld (hasked ▸ ha) hcalls (ht.trans htold)
  | refused ha ht => exact .refused (hasked ▸ ha) (ht.trans htold)
  | changed ha ht hfails => exact .changed (hasked ▸ ha) (htold ▸ ht) hfails

theorem untouched {r : Except Error γ} (n : Statistics) {w₁ : ω}
    (hheld : ∀ y, r = .ok y → c.entries.get? k = new)
    (hasked : asked w₁ = asked w) (htold : told w₁ = told w) :
    Settled asked told k new c w (r, ({ c with stats := n }, w₁)) :=
  .idle hheld (hasked.trans (List.append_nil (asked w)).symm) (fun _ h => nomatch h) htold

end Settled

abbrev Op.Settles (asked : ω → List (WriterCall κ α × Except Error Unit))
    (told : ω → List (Except Error Unit))
    (k : κ) (new : Option α) (c : Cache ω κ α) (w : ω) (op : Op ω κ α γ) : Prop :=
  Settled asked told k new c w (op.run (c, w))

namespace Op.Settles

variable {op : Op ω κ α β}

theorem pure (h : c.entries.get? k = new) (x : γ) : Op.Settles asked told k new c w (pure x) :=
  .untouched c.stats (fun _ _ => h) rfl rfl

theorem fail (e : Error) : Op.Settles asked told k new c w (.fail e : Op ω κ α γ) :=
  .untouched c.stats (fun _ h => nomatch h) rfl rfl

theorem then_pure (h : Op.Settles asked told k new c w op) (f : β → γ) :
    Op.Settles asked told k new c w (op >>= fun x => Pure.pure (f x)) := by
  rw [Op.Settles, Action.run_bind_pure]
  exact h.map f

theorem discard (h : Op.Settles asked told k new c w op) :
    Op.Settles asked told k new c w (discard op) :=
  h.then_pure fun _ => ()

theorem opened (hopen : c.closed = false) (h : Op.Settles asked told k new c w op) :
    Op.Settles asked told k new c w (ensureOpen >>= fun _ => op) := by
  rwa [Op.Settles, Action.run_bind_of_ok (run_ensureOpen hopen w)]

theorem looked {f : Cache ω κ α → β} {g : β → Op ω κ α γ}
    (h : Op.Settles asked told k new c w (g (f c))) :
    Op.Settles asked told k new c w (look f >>= g) := h

end Op.Settles

section

variable (hc : c.Minuted asked told) (hopen : c.closed = false) (hcopy : ∀ v, c.copy v = .ok v)
include hc hopen hcopy

theorem putIfAbsent_settles (k : κ) (v : α) (w : ω) :
    Op.Settles asked told k (some ((c.entries.get? k).getD v)) c w (putIfAbsent k v) := by
  refine .opened hopen (.looked ?_)
  rw [FiniteMap.contains]
  cases hk : c.entries.get? k with
  | some u => exact .pure hk false
  | none => exact (Op.Settles.discard (storeValue_settled hc (hcopy v) k w)).then_pure _

theorem getAndReplace_settles (k : κ) (v : α) (w : ω) :
    Op.Settles asked told k ((c.entries.get? k).map fun _ => v) c w (getAndReplace k v) := by
  refine .opened hopen (.looked ?_)
  rw [FiniteMap.contains]
  cases hk : c.entries.get? k with
  | some u => exact storeValue_settled hc (hcopy v) k w
  | none => exact .pure hk none

theorem replaceIfEquals_settles [DecidableEq α] (k : κ) (old v : α) (w : ω) :
    Op.Settles asked told k (if c.entries.get? k = some old then some v else c.entries.get? k) c w
      (replaceIfEquals k old v) := by
  refine .opened hopen (.looked ?_)
  by_cases hk : c.entries.get? k = some old
  · simp only [if_pos hk]
    exact (Op.Settles.discard (storeValue_settled hc (hcopy v) k w)).then_pure _
  · simp only [if_neg hk]
    exact .pure rfl false

omit hcopy in
theorem removeIfEquals_settles [DecidableEq α] (k : κ) (old : α) (w : ω) :
    Op.Settles asked told k (if c.entries.get? k = some old then none else c.entries.get? k) c w
      (removeIfEquals k old) := by
  refine .opened hopen (.looked ?_)
  by_cases hk : c.entries.get? k = some old
  · simp only [if_pos hk]
    exact (Op.Settles.discard (deleteValue_settled hc k w)).then_pure _
  · simp only [if_neg hk]
    exact .pure rfl false

omit hopen in
theorem apply_settles (k : κ) {o : Outcome α} (hnew : o.commit (c.entries.get? k) = new) (w : ω) :
    Op.Settles asked told k new c w (apply k o) := by
  subst hnew
  cases o with
  | nothing => exact .pure rfl ()
  | accessed => exact .untouched _ (fun _ _ => rfl) rfl rfl
  | loaded v => exact Op.Settles.discard (storeValue_settled hc (hcopy v) k w)
  | created v => exact Op.Settles.discard (storeValue_settled hc (hcopy v) k w)
  | updated v => exact Op.Settles.discard (storeValue_settled hc (hcopy v) k w)
  | removed => exact Op.Settles.discard (deleteValue_settled hc k w)

theorem invoke_settles (k : κ) (p : Processor α β) (w : ω) :
    Op.Settles asked told k (StagedEntry.run (loading k c) p (.ofCurrent (c.entries.get? k))
      w).2.1.value c w
      (invoke k p) := by
  have hcurrent : current k c = .ok (c.entries.get? k) := by
    unfold current
    cases c.entries.get? k with
    | none => rfl
    | some v => simp only [hcopy v, Except.map]
  have hconsistent := (StagedEntry.consistent_ofCurrent (c.entries.get? k)).answerAll (loading k c)
    (StagedEntry.calls (loading k c) p (.ofCurrent (c.entries.get? k)) w) w
  have hasked := run_leaves (w := w) (k := k) (fun l hl k => (hc.loader l hl k).1) p
    (c.entries.get? k)
  have htold := run_leaves (w := w) (k := k) (fun l hl k => (hc.loader l hl k).2) p
    (c.entries.get? k)
  rw [← StagedEntry.run_calls] at hconsistent
  rw [Op.Settles, run_invoke hopen, hcurrent]
  dsimp only
  generalize StagedEntry.run (loading k c) p (.ofCurrent (c.entries.get? k)) w =
    x at hconsistent hasked htold ⊢
  obtain ⟨e | b, staged, w₁⟩ := x
  · exact .untouched c.stats (fun _ h => nomatch h) hasked htold
  · refine .later hasked htold (Op.Settles.then_pure ?_ fun _ => b)
    cases he : staged.loadError with
    | some e =>
      rw [commit, StagedEntry.outcome_of_loadError he]
      exact .fail e
    | none =>
      obtain ⟨o, ho, hvalue, -⟩ := hconsistent.outcome he
      rw [commit, ho]
      exact apply_settles hc hcopy k hvalue w₁

end

/-- The key that an operation on one key is to change, and what the key holds if the operation has
its way. -/
def Operation.aim [DecidableEq α] (s : Cache ω κ α × ω) : Operation ω κ α β → Option (κ × Option α)
  | .put k v | .getAndPut k v => some (k, some v)
  | .putIfAbsent k v => some (k, some ((s.1.entries.get? k).getD v))
  | .replace k v | .getAndReplace k v => some (k, (s.1.entries.get? k).map fun _ => v)
  | .replaceIfEquals k old v =>
    some (k, if s.1.entries.get? k = some old then some v else s.1.entries.get? k)
  | .remove k | .getAndRemove k => some (k, none)
  | .removeIfEquals k old => some (k, if s.1.entries.get? k = some old then none
      else s.1.entries.get? k)
  | .invoke k p =>
    some (k, (StagedEntry.run (loading k s.1) p (.ofCurrent (s.1.entries.get? k)) s.2).2.1.value)
  | _ => none

theorem Operation.settles [DecidableEq α] (hc : c.Minuted asked told) (hopen : c.closed = false)
    (hcopy : ∀ v, c.copy v = .ok v) {op : Operation ω κ α β} (hop : op.aim (c, w) = some (k, new)) :
    Op.Settles asked told k new c w (op.run id) := by
  have hopened {γ : Type} {op : Op ω κ α γ} (h : Op.Settles asked told k new c w op) :
      Op.Settles asked told k new c w (ensureOpen >>= fun _ => op) := .opened hopen h
  cases op with
  | put _ v =>
    cases hop; exact (hopened (.discard (storeValue_settled hc (hcopy v) k w))).then_pure _
  | getAndPut _ v => cases hop; exact (hopened (storeValue_settled hc (hcopy v) k w)).then_pure _
  | putIfAbsent _ v => cases hop; exact (putIfAbsent_settles hc hopen hcopy k v w).then_pure _
  | replaceIfEquals _ old v =>
    cases hop; exact (replaceIfEquals_settles hc hopen hcopy k old v w).then_pure _
  | replace _ v =>
    cases hop; exact ((getAndReplace_settles hc hopen hcopy k v w).then_pure _).then_pure _
  | getAndReplace _ v => cases hop; exact (getAndReplace_settles hc hopen hcopy k v w).then_pure _
  | remove _ => cases hop; exact (hopened (.then_pure (deleteValue_settled hc k w) _)).then_pure _
  | removeIfEquals _ old => cases hop; exact (removeIfEquals_settles hc hopen k old w).then_pure _
  | getAndRemove _ => cases hop; exact (hopened (deleteValue_settled hc k w)).then_pure _
  | invoke _ p => cases hop; exact (invoke_settles hc hopen hcopy k p w).then_pure _
  | _ => cases hop

/-- What an operation comes to that would have a key hold `new`: `r` is its result and `c'` the
cache after it, `calls` are those of the writer, and `answers` those of filters and hooks. -/
structure AllOrNothing (k : κ) (new : Option α) (c : Cache ω κ α) (r : Except Error γ)
    (c' : Cache ω κ α) (calls : List (WriterCall κ α × Except Error Unit))
    (answers : List (Except Error Unit)) : Prop where
  refused : ∀ call e, (call, .error e) ∈ calls →
    (∃ err, r = .error err ∧ Error.Attributed .writer e err) ∧ c' = c ∧ answers = []
  kept : ∀ e, .error e ∈ answers →
    (∃ err, r = .error err ∧ err.rootCause = e.rootCause) ∧ c'.entries.get? k = new ∧
      c'.stats = (if new.isSome then { c.stats with puts := c.stats.puts + 1 }
        else { c.stats with removals := c.stats.removals + 1 }) ∧
      calls = c.accepted k new
  succeeded : ∀ x, r = .ok x → c'.entries.get? k = new
  written : c'.entries.get? k ≠ c.entries.get? k → calls = c.accepted k new
  aimed : ∀ x ∈ calls, x.1 = .toHold k new
  others : ∀ j ≠ k, c'.entries.get? j = c.entries.get? j

theorem Settled.allOrNothing {x : Except Error γ × (Cache ω κ α × ω)}
    (h : Settled asked told k new c w x) :
    ∃ calls answers, asked x.2.2 = asked w ++ calls ∧ told x.2.2 = told w ++ answers ∧
      AllOrNothing k new c x.1 x.2.1 calls answers := by
  cases h with
  | @idle _ _ _ calls hheld hasked hcalls htold =>
    refine ⟨calls, [], hasked, htold.trans (List.append_nil _).symm, ?_⟩
    exact {
      refused := fun call e he => nomatch hcalls _ he
      kept := fun e he => nomatch he
      succeeded := hheld
      written := fun hne => absurd rfl hne
      aimed := fun x hx => congrArg Prod.fst (hcalls x hx)
      others := fun j hj => rfl }
  | @refused _ e hasked htold =>
    refine ⟨_, [], hasked, htold.trans (List.append_nil _).symm, ?_⟩
    exact {
      refused := fun call e' he => by
        cases List.mem_singleton.1 he
        exact ⟨⟨_, rfl, e.attributed .writer⟩, rfl, rfl⟩
      kept := fun e he => nomatch he
      succeeded := fun x hx => nomatch hx
      written := fun hne => absurd rfl hne
      aimed := fun x hx => congrArg Prod.fst (List.mem_singleton.1 hx)
      others := fun j hj => rfl }
  | @changed _ _ answers hasked htold hfails =>
    have hheld := get?_holding k new c
    refine ⟨_, answers, hasked, htold, ?_⟩
    exact {
      refused := fun call e he => nomatch mem_accepted he
      kept := fun e he => ⟨hfails e he, hheld, stats_holding k new c, rfl⟩
      succeeded := fun _ _ => hheld
      written := fun _ => rfl
      aimed := fun x hx => congrArg Prod.fst (mem_accepted hx)
      others := fun j hj => get?_holding_of_ne hj new c }

/-- A change that the writer refuses fails with that, and nothing has happened but that the writer
was asked. A change that a filter or a listener fails at fails as well, and yet it is made,
counted, and was written once. -/
theorem refused_or_changed [DecidableEq α] (hc : c.Minuted asked told) (hopen : c.closed = false)
    (hcopy : ∀ v, c.copy v = .ok v) {op : Operation ω κ α β} (hop : op.aim (c, w) = some (k, new)) :
    let x := op.run id (c, w)
    ∃ calls answers, asked x.2.2 = asked w ++ calls ∧ told x.2.2 = told w ++ answers ∧
      AllOrNothing k new c x.1 x.2.1 calls answers :=
  (Operation.settles hc hopen hcopy hop).allOrNothing

end Cache

structure Minutes (κ α : Type) : Type where
  asked : List (WriterCall κ α × Except Error Unit) := []
  told : List (Except Error Unit) := []

namespace Minutes

variable (verdict : κ → Except Error Unit) (answer : Except Error Unit)

def writer : Writer (Minutes κ α) κ α where
  write k v n := (verdict k, { n with asked := n.asked ++ [(.write k v, verdict k)] })
  delete k n := (verdict k, { n with asked := n.asked ++ [(.delete k, verdict k)] })

def hook (_ : List (Event κ α)) : Action (Minutes κ α) Unit := fun n =>
  (answer, { n with told := n.told ++ [answer] })

def listener : Listener (Minutes κ α) κ α := ⟨hook answer, hook answer, hook answer, hook answer⟩

def configuration : Configuration (Minutes κ α) κ α where
  flags := { (default : Flags) with writeThrough := true }
  listeners := [⟨.singleton 0 (listener answer), none, false, true⟩]
  loader := none
  writer := some (.singleton 1 (writer verdict))
  expiry := .singleton 2 .eternal

omit [DecidableEq κ] in
theorem dispatch_logs (t : EventType) (es : List (Event κ α)) :
    ((listener answer).dispatch t es : Action (Minutes κ α) Unit).Logs told ended := by
  cases t <;> cases answer <;> exact fun _ => rfl

theorem minuted_create (name : String) (copy : α → Except Error α) :
    (Cache.create name (configuration verdict answer) copy {}).1.Minuted asked told where
  writer := by
    rintro wr ⟨⟩
    exact ⟨⟨fun _ _ _ => rfl, fun _ _ => rfl⟩, ⟨fun _ _ _ => rfl, fun _ _ => rfl⟩⟩
  listeners := by
    intro r hr
    obtain rfl := List.mem_singleton.1 hr
    refine ⟨⟨dispatch_logs answer, fun _ h => nomatch h⟩, ⟨fun t es n => ?_, fun _ h => nomatch h⟩⟩
    cases t <;> rfl
  loader := by
    rintro l ⟨⟩

end Minutes

theorem Cache.refused_or_changed_set :
    let denied : Error := .cache "read-only"
    let full : Error := .cache "full"
    let verdict (k : Nat) : Except Error Unit := if k = 1 then .error denied else .ok ()
    let c := (create "c" (Minutes.configuration verdict (.error full)) .ok {}).1.enter 3 7
    let set (k : Nat) : Operation (Minutes Nat Nat) Nat Nat Unit :=
      .invoke k (.set 5 (.done (.ok ())))
    let x (k : Nat) := (set k).run id (c, {})
    let y := (Operation.remove 3 : Operation (Minutes Nat Nat) Nat Nat Unit).run id (c, {})
    ((x 1).1 = .error (.wrapped .writer denied.message denied) ∧ (x 1).2.1 = c) ∧
      ((∃ err, (x 2).1 = .error err ∧ err.rootCause = full) ∧
        (x 2).2.1.entries.get? 2 = some 5 ∧
        (x 2).2.1.stats = { c.stats with puts := c.stats.puts + 1 } ∧
        (x 2).2.2.asked = [(.write 2 5, .ok ())]) ∧
      (∃ err, y.1 = .error err ∧ err.rootCause = full) ∧
        y.2.1.entries.get? 3 = none ∧ y.2.1.stats =
          { c.stats with removals := c.stats.removals + 1 } ∧
        y.2.2.asked = [(.delete 3, .ok ())] := by
  intro denied full verdict c set x y
  have hcreated := Minutes.minuted_create (κ := Nat) (α := Nat) verdict (.error full) "c" .ok
  have hc : c.Minuted Minutes.asked Minutes.told :=
    ⟨hcreated.writer, hcreated.listeners, hcreated.loader⟩
  refine ⟨?_, ?_, ?_⟩
  · have hop : (set 1).aim (c, {}) = some (1, some 5) := rfl
    obtain ⟨calls, _, hasked, -, h⟩ := refused_or_changed hc rfl (fun _ => rfl) hop
    have hcalls : [(.write 1 5, .error denied)] = calls := hasked
    obtain ⟨⟨err, herr, hattributed⟩, hsame, -⟩ :=
      h.refused _ _ (hcalls ▸ List.mem_singleton_self _)
    rw [hattributed.wrapped nofun] at herr
    exact ⟨herr, hsame⟩
  · have hop : (set 2).aim (c, {}) = some (2, some 5) := rfl
    obtain ⟨calls, answers, hasked, htold, h⟩ := refused_or_changed hc rfl (fun _ => rfl) hop
    have hanswers : [.error full] = answers := htold
    obtain ⟨herr, hheld, hstats, hcalls⟩ := h.kept _ (hanswers ▸ List.mem_singleton_self _)
    exact ⟨herr, hheld, hstats, hasked.trans hcalls⟩
  · have hop : (Operation.remove 3 : Operation (Minutes Nat Nat) Nat Nat Unit).aim (c, {}) =
        some (3, none) := rfl
    obtain ⟨calls, answers, hasked, htold, h⟩ := refused_or_changed hc rfl (fun _ => rfl) hop
    have hanswers : [.error full] = answers := htold
    obtain ⟨herr, hheld, hstats, hcalls⟩ := h.kept _ (hanswers ▸ List.mem_singleton_self _)
    exact ⟨herr, hheld, hstats, hasked.trans hcalls⟩

end EntryCache

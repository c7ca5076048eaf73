import EntryCache.Proofs.Cache.Lasting
import EntryCache.Proofs.Cache.Recording

/-! How much an operation can put on a record in the world. Bounds add up where steps follow each
other, so they are found call by call: a change asks the writer once and tells each listener once,
and an invocation makes at most one change. -/

namespace EntryCache

variable {σ τ ω κ α β γ : Type}

namespace Action

def Adds (I : σ → Prop) (record : σ → List τ) (P : τ → Prop) (n : Nat) (a : Action σ γ) : Prop :=
  ∀ s, I s → I (a.run s).2 ∧ ∃ xs, record (a.run s).2 = record s ++ xs ∧ xs.length ≤ n ∧
    ∀ x ∈ xs, P x

namespace Adds

variable {I : σ → Prop} {record : σ → List τ} {P : τ → Prop} {m n : Nat}

theorem of_keeps {a : Action σ γ} (h : ∀ xs, Keeps (fun s => I s ∧ record s = xs) a) :
    Adds I record P 0 a := by
  intro s hs
  obtain ⟨ht, hrecord⟩ := h (record s) s ⟨hs, rfl⟩
  exact ⟨ht, [], hrecord.trans (List.append_nil _).symm, Nat.le_refl 0, List.forall_mem_nil _⟩

theorem of_leaves {a : Action σ γ} (hI : Keeps I a) (h : a.Leaves record) : Adds I record P 0 a :=
  of_keeps fun _ s hs => ⟨hI s hs.1, (h s).trans hs.2⟩

theorem of_entry {a : Action σ γ} (hI : Keeps I a) {x : τ} (hx : P x)
    (h : ∀ s, record (a.run s).2 = record s ++ [x]) : Adds I record P 1 a := by
  refine fun s hs => ⟨hI s hs, [x], h s, Nat.le_refl 1, fun y hy => ?_⟩
  rwa [List.mem_singleton.1 hy]

theorem pure (x : γ) : Adds I record P 0 (pure x : Action σ γ) := of_leaves (.pure x) fun _ => rfl

theorem ofExcept (r : Except Error γ) : Adds I record P 0 (ofExcept r : Action σ γ) :=
  of_leaves (.ofExcept r) fun _ => rfl

theorem mono {a : Action σ γ} (h : Adds I record P m a) (hle : m ≤ n) : Adds I record P n a := by
  intro s hs
  obtain ⟨ht, xs, hxs, hlength, hall⟩ := h s hs
  exact ⟨ht, xs, hxs, Nat.le_trans hlength hle, hall⟩

theorem bind {a : Action σ β} {f : β → Action σ γ} (ha : Adds I record P m a)
    (hf : ∀ x, Adds I record P n (f x)) : Adds I record P (m + n) (a >>= f) := by
  intro s hs
  have ha := ha s hs
  rcases hrun : a.run s with ⟨e | x, t⟩ <;> rw [hrun] at ha
  · rw [run_bind_of_error hrun]
    obtain ⟨ht, xs, hxs, hlength, hall⟩ := ha
    exact ⟨ht, xs, hxs, Nat.le_trans hlength (Nat.le_add_right m n), hall⟩
  · rw [run_bind_of_ok hrun]
    obtain ⟨ht, xs, hxs, hlength, hall⟩ := ha
    obtain ⟨hu, ys, hys, hlength', hall'⟩ := hf x t ht
    refine ⟨hu, xs ++ ys, by rw [hys, hxs, List.append_assoc], ?_, ?_⟩
    · rw [List.length_append]
      exact Nat.add_le_add hlength hlength'
    · exact List.forall_mem_append.2 ⟨hall, hall'⟩

theorem bind_free {a : Action σ β} {f : β → Action σ γ} (ha : Adds I record P 0 a)
    (hf : ∀ x, Adds I record P n (f x)) :
    Adds I record P n (a >>= f) := (ha.bind hf).mono (Nat.le_of_eq (Nat.zero_add n))

theorem map {a : Action σ β} (h : Adds I record P n a) (f : β → γ) :
    Adds I record P n (a >>= fun x => Pure.pure (f x)) := h.bind fun x => pure (f x)

theorem mapError {a : Action σ γ} (h : Adds I record P n a) (f : Error → Error) :
    Adds I record P n (a.mapError f) := by
  intro s hs
  rw [run_mapError]
  exact h s hs

theorem forEach {f : β → Action σ Unit} {before after : List β} {x : β}
    (hothers : ∀ y ∈ before ++ after, Adds I record P 0 (f y)) (hx : Adds I record P n (f x)) :
    Adds I record P n (Action.forEach f (before ++ x :: after)) := by
  have hafter : ∀ ys, (∀ y ∈ ys, Adds I record P 0 (f y)) →
      Adds I record P 0 (Action.forEach f ys) := by
    intro ys hys
    induction ys with
    | nil => exact pure ()
    | cons y ys ih =>
      rw [List.forall_mem_cons] at hys
      exact hys.1.bind fun _ => ih hys.2
  induction before with
  | nil => exact hx.bind fun _ => hafter after hothers
  | cons y before ih =>
    rw [List.cons_append, List.forall_mem_cons] at hothers
    exact hothers.1.bind_free fun _ => ih hothers.2

end Adds

end Action

def WriterCall.key : WriterCall κ α → κ
  | .write k _ => k
  | .delete k => k

variable [DecidableEq κ]

structure Registered.Journals (events : ω → List (Event κ α)) (r : Registered ω κ α) : Prop where
  hooks : ∀ t es w, events ((r.listener.dispatch t es).run w).2 = events w ++ es
  filters : ∀ g ∈ r.filter, ∀ e, (g e).Leaves events

namespace Cache

variable {record : ω → List τ} {P : τ → Prop} {k : κ} {m n : Nat}

structure Charges (record : ω → List τ) (P : τ → Prop) (k : κ) (m n : Nat)
    (c : Cache ω κ α) : Prop where
  writes : ∀ wr ∈ c.writer?, ∀ v, (wr.write k v).Adds (fun _ => True) record P m
  deletes : ∀ wr ∈ c.writer?, (wr.delete k).Adds (fun _ => True) record P m
  tells : ∀ t value old,
    (Action.forEach (fun r => tell r (eventFor c.name t k value old r)) c.listeners).Adds
      (fun _ => True) record P n
  loads : ∀ l ∈ c.loader?, (l.load k).Leaves record

theorem lasting_charges : Lasting (Charges (ω := ω) (α := α) record P k m n) :=
  fun _ _ _ h => ⟨h.writes, h.deletes, h.tells, h.loads⟩

abbrev Op.Adds (record : ω → List τ) (P : τ → Prop) (k : κ) (m n : Nat) (bound : Nat)
    (op : Op ω κ α γ) : Prop :=
  Action.Adds (fun s => s.1.Charges record P k m n) (fun s => record s.2) P bound op

namespace Op.Adds

theorem beside {bound : Nat} {a : Cache ω κ α → Action ω γ}
    (h : ∀ c : Cache ω κ α, c.Charges record P k m n → (a c).Adds (fun _ => True) record P bound) :
    Op.Adds record P k m n bound fun s => (a s.1).beside s :=
  fun s hs => ⟨hs, (h s.1 hs s.2 trivial).2⟩

theorem update {f : Cache ω κ α → Cache ω κ α}
    (h : ∀ c, ∃ es n, f c = { c with entries := es, stats := n }) :
    Op.Adds record P k m n 0 (update f) := by
  refine .of_leaves (fun s hs => ?_) fun _ => rfl
  obtain ⟨es, stats, hf⟩ := h s.1
  change (f s.1).Charges record P k m n
  rw [hf]
  exact lasting_charges s.1 es stats hs

theorem look (f : Cache ω κ α → γ) :
    Op.Adds record P k m n 0 (look f) := .of_leaves (fun _ h => h) fun _ => rfl

theorem copied (v : α) : Op.Adds record P k m n 0 (copied v : Op ω κ α α) :=
  .of_leaves (fun _ h => h) fun _ => rfl

theorem writeThrough (v : α) : Op.Adds record P k m n m (writeThrough k v : Op ω κ α Unit) := by
  apply beside (a := fun c => onSome c.writer? fun wr => (wr.write k v).mapError
    (·.attributeTo .writer))
  intro c hc
  cases hwr : c.writer? with
  | none => exact (Action.Adds.pure ()).mono (Nat.zero_le m)
  | some wr => exact (hc.writes wr hwr v).mapError _

theorem deleteThrough : Op.Adds record P k m n m (deleteThrough k : Op ω κ α Unit) := by
  apply beside (a := fun c => onSome c.writer? fun wr => (wr.delete k).mapError
    (·.attributeTo .writer))
  intro c hc
  cases hwr : c.writer? with
  | none => exact (Action.Adds.pure ()).mono (Nat.zero_le m)
  | some wr => exact (hc.deletes wr hwr).mapError _

theorem notify (t : EventType) (value old : Option α) :
    Op.Adds record P k m n n (notify t k value old : Op ω κ α Unit) :=
  beside fun _ hc => hc.tells t value old

theorem storeValue (v : α) :
    Op.Adds record P k m n (m + n) (storeValue k v : Op ω κ α (Option α)) := by
  refine (writeThrough v).bind fun _ => ?_
  refine (copied v).bind_free fun stored => ?_
  refine (look _).bind_free fun old => ?_
  refine (update fun c => ⟨_, _, rfl⟩).bind_free fun _ => ?_
  cases old with
  | some o => exact (notify _ _ _).bind fun _ => .pure _
  | none => exact (notify _ _ _).bind fun _ => .pure _

theorem deleteValue : Op.Adds record P k m n (m + n) (deleteValue k : Op ω κ α (Option α)) := by
  refine deleteThrough.bind fun _ => ?_
  refine (look _).bind_free fun old => ?_
  cases old with
  | none => exact (Action.Adds.pure none).mono (Nat.zero_le n)
  | some o =>
    refine (update fun c => ⟨_, _, rfl⟩).bind_free fun _ => ?_
    exact (notify _ _ _).bind fun _ => .pure _

theorem apply (o : Outcome α) : Op.Adds record P k m n (m + n) (apply k o : Op ω κ α Unit) := by
  have hnone : 0 ≤ m + n := Nat.zero_le _
  cases o with
  | nothing => exact (Action.Adds.pure ()).mono hnone
  | accessed => exact (update fun c => ⟨_, _, rfl⟩).mono hnone
  | loaded v => exact (storeValue v).map _
  | created v => exact (storeValue v).map _
  | updated v => exact (storeValue v).map _
  | removed => exact deleteValue.map _

theorem commit (staged : StagedEntry α) :
    Op.Adds record P k m n (m + n) (commit k staged : Op ω κ α Unit) :=
  (Action.Adds.ofExcept _).bind_free fun o => apply o

theorem runStaged (p : Processor α β) :
    Op.Adds record P k m n 0 (runStaged k p : Op ω κ α (Except Error β × StagedEntry α)) := by
  refine .of_keeps fun xs => ?_
  rintro ⟨c, w⟩ ⟨hc, hw⟩
  cases hclosed : c.closed with
  | true =>
    rw [Cache.runStaged, Action.run_bind_of_error (run_ensureOpen_of_closed hclosed w)]
    exact ⟨hc, hw⟩
  | false =>
    rw [run_runStaged hclosed]
    cases current k c with
    | error e => exact ⟨hc, hw⟩
    | ok v =>
      refine ⟨hc, StagedEntry.keeps_run (I := fun w => record w = xs) ?_ p _ hw⟩
      intro load hload
      obtain ⟨l, hl, rfl⟩ := Option.map_eq_some_iff.1 hload
      exact (hc.loads l hl).keeps (· = xs)

theorem invoke (p : Processor α β) : Op.Adds record P k m n (m + n) (invoke k p : Op ω κ α β) := by
  rw [invoke_eq_bind]
  refine (runStaged p).bind_free fun x => ?_
  obtain ⟨e | b, staged⟩ := x
  · exact (Action.Adds.of_leaves (.fail _) fun _ => rfl).mono (Nat.zero_le _)
  · exact (commit staged).map _

end Op.Adds

variable {c : Cache ω κ α} {calls : ω → List (WriterCall κ α)} {events : ω → List (Event κ α)}

structure Writes (calls : ω → List (WriterCall κ α)) (c : Cache ω κ α) : Prop where
  writer : ∀ wr ∈ c.writer?, wr.Records calls
  listeners : ∀ r ∈ c.listeners, r.Leaves calls
  loader : ∀ l ∈ c.loader?, ∀ k, (l.load k).Leaves calls

structure Tells (events : ω → List (Event κ α)) (r : Registered ω κ α)
    (c : Cache ω κ α) : Prop where
  placed : ∃ before after, c.listeners = before ++ r :: after ∧ ∀ x ∈ before ++ after,
    x.Leaves events
  listener : r.Journals events
  writer : ∀ wr ∈ c.writer?, wr.Leaves events
  loader : ∀ l ∈ c.loader?, ∀ k, (l.load k).Leaves events

theorem Writes.charges (h : c.Writes calls) (k : κ) : c.Charges calls (·.key = k) k 1 0 where
  writes wr hwr v := .of_entry (fun _ _ => trivial) rfl ((h.writer wr hwr).write k v)
  deletes wr hwr := .of_entry (fun _ _ => trivial) rfl ((h.writer wr hwr).delete k)
  tells t value old := by
    refine .of_leaves (fun _ _ => trivial) (.of_keeps fun x => .forEach fun r hr => ?_)
    exact (tell_leaves (h.listeners r hr) _).keeps (· = x)
  loads l hl := h.loader l hl k

omit [DecidableEq κ] in
theorem tell_adds {r : Registered ω κ α} (h : r.Journals events) {e : Event κ α} (he : e.key = k) :
    (tell r e).Adds (fun _ => True) events (·.key = k) 1 := by
  have haccepts : (accepts r e).Leaves events := by
    unfold accepts
    split
    · next g hg => exact h.filters g hg e
    · exact fun _ => rfl
  refine (Action.Adds.of_leaves (fun _ _ => trivial) haccepts).bind_free fun b => ?_
  cases b with
  | false => exact (Action.Adds.pure ()).mono (Nat.zero_le 1)
  | true =>
    have hhook : (r.listener.dispatch e.type [e]).Adds (fun _ => True) events (·.key = k) 1 :=
      .of_entry (fun _ _ => trivial) he (h.hooks e.type [e])
    exact hhook.mapError _

theorem Tells.charges {r : Registered ω κ α} (h : c.Tells events r) (k : κ) :
    c.Charges events (·.key = k) k 0 1 where
  writes wr hwr v := .of_leaves (fun _ _ => trivial) ((h.writer wr hwr).write k v)
  deletes wr hwr := .of_leaves (fun _ _ => trivial) ((h.writer wr hwr).delete k)
  tells t value old := by
    obtain ⟨before, after, hlisteners, hothers⟩ := h.placed
    rw [hlisteners]
    refine .forEach (fun x hx => .of_leaves (fun _ _ => trivial) (tell_leaves (hothers x hx) _)) ?_
    exact tell_adds h.listener rfl
  loads l hl := h.loader l hl k

end Cache

end EntryCache

import EntryCache.Proofs.Cache.Changes

namespace EntryCache.Cache

variable {ω κ α β γ : Type} [DecidableEq κ] {s : Cache ω κ α × ω}

def Operation.CanFail : Operation ω κ α β → Prop
  | .invokeAll _ _ => False
  | .clearStatistics => False
  | .close => False
  | _ => True

def Operation.refusal (name : String) : Operation ω κ α β → Except Error (Reply κ α β)
  | .invokeRaw _ _ => .ok (.raw ⟨.error (.illegalState ("Cache " ++ name ++ " is closed")), []⟩)
  | _ => .error (.illegalState ("Cache " ++ name ++ " is closed"))

def Refuses (s : Cache ω κ α × ω) (op : Op ω κ α β) :
    Prop := op.run s = (.error (closedError s.1.name), s)

theorem Refuses.bind {op : Op ω κ α β} (h : Refuses s op) (f : β → Op ω κ α γ) :
    Refuses s (op >>= f) :=
  Action.run_bind_of_error h

theorem refuses_open (h : s.1.closed = true) (f : PUnit → Op ω κ α β) :
    Refuses s (ensureOpen >>= f) :=
  Refuses.bind (run_ensureOpen_of_closed h s.2) f

theorem refuses_getAll (h : s.1.closed = true) {ks : List κ} (hks : ks ≠ []) :
    Refuses s (getAll ks) := by
  cases ks with
  | nil => exact absurd rfl hks
  | cons k ks => exact (refuses_open h _ : Refuses s (get k)).bind _

theorem invokeRaw_of_closed (h : s.1.closed = true) (k : κ) (p : Processor α β) :
    invokeRaw k p s = (⟨.error (closedError s.1.name), []⟩, s) := by
  have hr : Refuses s (runStaged k p) := refuses_open h _
  change runStaged k p s = _ at hr
  rw [invokeRaw, hr]

theorem refuses_invoke (h : s.1.closed = true) (k : κ) (p : Processor α β) :
    Refuses s (invokeAround id k p) := by
  change (RawRun.conclude s.1.name (invokeRaw k _ s).1, (invokeRaw k _ s).2) = _
  rw [invokeRaw_of_closed h]
  rfl

theorem Operation.run_of_closed [DecidableEq α] (h : s.1.closed = true) {op : Operation ω κ α β}
    (hop : op.CanFail)
    (hkeys : op ≠ .getAll []) : (op.run id).run s = (op.refusal s.1.name, s) := by
  cases op with
  | getAll ks => exact (refuses_getAll h fun hks => hkeys (congrArg _ hks)).bind _
  | replace k v => exact ((refuses_open h _ : Refuses s (Cache.getAndReplace k v)).bind _).bind _
  | getOrPutWith k compute => exact ((refuses_open h _ : Refuses s (Cache.get k)).bind _).bind _
  | invoke k p => exact (refuses_invoke h k p).bind _
  | invokeRaw k p =>
    change (Except.ok (Reply.raw (Cache.invokeRaw k p s).1), (Cache.invokeRaw k p s).2) = _
    rw [invokeRaw_of_closed h]
    rfl
  | invokeAll ks p => exact hop.elim
  | clearStatistics => exact hop.elim
  | close => exact hop.elim
  | _ => exact (refuses_open h _).bind _

theorem Operation.run_getAll_nil [DecidableEq α] (s : Cache ω κ α × ω) :
    ((Operation.getAll [] : Operation ω κ α β).run id).run s = (.ok (.entries []), s) := rfl

/-- A closed cache refuses what can fail, unless it is asked for no keys; in any case it stays as it
is, with its components and all that they see, and no processor is run. -/
theorem refused_iff_of_closed [DecidableEq α] (h : s.1.closed = true) {op : Operation ω κ α β}
    (hop : op.CanFail) : ((op.run id).run s).2 = s ∧
      (((op.run id).run s).1 = op.refusal s.1.name ↔ op ≠ .getAll []) ∧
      ∀ k (p : Processor α β), (invokeRaw k p s).1.runs = [] := by
  have hruns : ∀ k (p : Processor α β), (invokeRaw k p s).1.runs = [] := by
    intro k p
    rw [invokeRaw_of_closed h]
  by_cases hkeys : op = .getAll []
  · subst hkeys
    rw [Operation.run_getAll_nil]
    exact ⟨rfl, iff_of_false nofun fun hne => hne rfl, hruns⟩
  · rw [op.run_of_closed h hop hkeys]
    exact ⟨rfl, iff_of_true rfl hkeys, hruns⟩

theorem refused_iff_of_closed_put :
    let s := ((create "c" (Configuration.new 0) .ok () : Cache Unit String Nat × Unit).1.close, ())
    let op : Operation Unit String Nat Unit := .putAll []
    (s.1.closed = true ∧ op.CanFail) ∧ ((op.run id).run s).2 = s ∧
      ((op.run id).run s).1 = .error (.illegalState "Cache c is closed") := by
  intro s op
  have hrefused := refused_iff_of_closed (show s.1.closed = true from rfl)
    (show op.CanFail from trivial)
  exact ⟨⟨rfl, trivial⟩, hrefused.1, hrefused.2.1.2 nofun⟩

/-- Being asked for no keys, a closed cache answers that it has found none. -/
theorem getAll_nil_of_closed :
    let s := ((create "c" (Configuration.new 0) .ok () : Cache Unit String Nat × Unit).1.close, ())
    let op : Operation Unit String Nat Unit := .getAll []
    s.1.closed = true ∧ op.CanFail ∧ ((op.run id).run s).1 ≠ op.refusal "c" := by
  intro s op
  exact ⟨rfl, trivial, nofun⟩

end EntryCache.Cache

import EntryCache.Method.Calls
import EntryCache.Proofs.Plain.Access

namespace EntryCache

variable {ω α : Type}

theorem exists_of_map_eq_ok {β ε : Type} {f : α → β} {x : Except ε α} {y : β}
    (h : x.map f = .ok y) : ∃ a, x = .ok a ∧ f a = y := by
  cases x with
  | error e => cases h
  | ok a => exact ⟨a, rfl, Except.ok.inj h⟩

theorem eq_error_of_map {β ε : Type} {f : α → β} {x : Except ε α} {e : ε} (h : x.map f = .error e) :
    x = .error e := by
  cases x with
  | error e' => exact congrArg _ (Except.error.inj h)
  | ok a => cases h

structure MethodCaches (ω α : Type) : Type where
  results : Cache ω Key α
  failures : Cache ω Key Error

namespace MethodCaches

def onResults : KeyedCache (MethodCaches ω α × ω) α :=
  KeyedCache.ofCache.focus (fun s => (s.1.results, s.2)) fun t s =>
    ({ s.1 with results := t.1 }, t.2)

def onFailures : KeyedCache (MethodCaches ω α × ω) Error :=
  KeyedCache.ofCache.focus (fun s => (s.1.failures, s.2)) fun t s =>
    ({ s.1 with failures := t.1 }, t.2)

variable {β : Type} {c : MethodCaches ω α} {w w' : ω} {r : Except Error β}

theorem run_onResults {a : Cache.Op ω Key α β} {x : Cache ω Key α}
    (h : a.run (c.results, w) = (r, (x, w'))) :
    (a.focus (fun s : MethodCaches ω α × ω => (s.1.results, s.2)) fun t s =>
      ({ s.1 with results := t.1 }, t.2)).run (c, w) = (r, ({ c with results := x }, w')) := by
  rw [Action.run_focus, h]

theorem run_onFailures {a : Cache.Op ω Key Error β} {x : Cache ω Key Error}
    (h : a.run (c.failures, w) = (r, (x, w'))) :
    (a.focus (fun s : MethodCaches ω α × ω => (s.1.failures, s.2)) fun t s =>
      ({ s.1 with failures := t.1 }, t.2)).run (c, w) = (r, ({ c with failures := x }, w')) := by
  rw [Action.run_focus, h]

end MethodCaches

/-- The method of a call sees the world, but not the caches around it. -/
structure MethodCall (ω α : Type) : Type where
  key : Key
  method : Action ω α

namespace ResultDescriptor

open MethodCaches

def call (d : ResultDescriptor) (c : MethodCall ω α) : Action (MethodCaches ω α × ω) α :=
  d.invoke onResults (some onFailures) c.key c.method.beside

def callAll (d : ResultDescriptor) : List (MethodCall ω α) → MethodCaches ω α × ω →
    List (Except Error α) × (MethodCaches ω α × ω)
  | [], s => ([], s)
  | c :: cs, s =>
    let (r, s) := d.call c s
    let (rs, s) := d.callAll cs s
    (r :: rs, s)

theorem callAll_concat (d : ResultDescriptor) (cs : List (MethodCall ω α)) (c : MethodCall ω α)
    (s : MethodCaches ω α × ω) :
    d.callAll (cs ++ [c]) s =
      ((d.callAll cs s).1 ++ [((d.call c).run (d.callAll cs s).2).1],
        ((d.call c).run (d.callAll cs s).2).2) := by
  induction cs generalizing s with
  | nil => rfl
  | cons b cs ih => simp only [List.cons_append, callAll, ih]

def ToKeep (d : ResultDescriptor) : Except Error α → Prop
  | .ok _ => True
  | .error e => ∀ f ∈ d.cachedExceptions, f e = true

theorem toKeep_error_iff {d : ResultDescriptor} {e : Error} :
    d.ToKeep (.error e : Except Error α) ↔ acceptsFailure d.cachedExceptions true e = true := by
  unfold ToKeep acceptsFailure
  cases d.cachedExceptions <;> simp

end ResultDescriptor

namespace MethodCaches

def copy (c : MethodCaches ω α) : Except Error α → Except Error (Except Error α)
  | .ok v => (c.results.copy v).map .ok
  | .error e => (c.failures.copy e).map .error

def replay (c : MethodCaches ω α) (r : Except Error α) : Except Error α := c.copy r >>= id

theorem replay_of_copy {c : MethodCaches ω α} {r : Except Error α} (h : c.copy r = .ok r) :
    c.replay r = r := by
  rw [replay, h]
  rfl

end MethodCaches

namespace ResultDescriptor

def Keeps (d : ResultDescriptor) (c : MethodCaches ω α) (r kept : Except Error α) : Prop :=
  d.ToKeep r ∧ c.copy r = .ok kept

/-- The answer to a call that runs its method: the outcome, unless that is to be kept and no copy
can be made. -/
inductive Answers (d : ResultDescriptor) (c : MethodCaches ω α) :
    Except Error α → Except Error α → Prop
  | own {r} (h : ∀ e, ¬(d.ToKeep r ∧ c.copy r = .error e)) : Answers d c r r
  | uncopied {r e} (hkeep : d.ToKeep r) (hcopy : c.copy r = .error e) : Answers d c r (.error e)

end ResultDescriptor

def failure? : Except Error α → Option Error
  | .ok _ => none
  | .error e => some e

namespace Table

variable {κ β : Type} [DecidableEq κ]

def select (f : α → Option β) (t : Table κ α) : Table κ β := fun k => (t k).bind f

theorem select_put {f : α → Option β} {a : α} {b : β} (h : f a = some b) (t : Table κ α) (k : κ) :
    (t.put k a).select f = (t.select f).put k b := by
  funext j
  by_cases hj : j = k
  · subst hj
    simp [select, put, h]
  · simp [select, put, hj]

theorem select_put_of_none {f : α → Option β} {a : α} (h : f a = none) {t : Table κ α} {k : κ}
    (hk : t k = none) : (t.put k a).select f = t.select f := by
  funext j
  by_cases hj : j = k
  · subst hj
    simp [select, put, h, hk]
  · simp [select, put, hj]

end Table

def copyOption {α : Type} (copy : α → Except Error α) : Option α → Except Error (Option α)
  | none => .ok none
  | some v => (copy v).map some

namespace Cache

variable {κ : Type} [DecidableEq κ]

structure Bare (copy : α → Except Error α) (m : Table κ α) (c : Cache ω κ α) : Prop where
  opened : c.closed = false
  loader : c.loader = none
  writer : c.writer = none
  listeners : c.listeners = []
  copies : c.copy = copy
  mapped : c.entries.get? = m

structure Blank (c : Cache ω κ α) : Prop where
  opened : c.closed = false
  loader : c.loader = none
  writer : c.writer = none
  listeners : c.listeners = []
  empty : c.entries = ∅

theorem Blank.bare {c : Cache ω κ α} (h : c.Blank) : c.Bare c.copy fun _ => none :=
  ⟨h.opened, h.loader, h.writer, h.listeners, rfl, by rw [h.empty]; rfl⟩

namespace Bare

variable {copy : α → Except Error α} {m : Table κ α} {c : Cache ω κ α} {w : ω} {k : κ} {v u : α}

theorem count (h : c.Bare copy m) (n : Statistics) : Bare copy m { c with stats := n } :=
  ⟨h.opened, h.loader, h.writer, h.listeners, h.copies, h.mapped⟩

theorem get (h : c.Bare copy m) (k : κ) (w : ω) :
    ∃ c', (Cache.get k).run (c, w) = (copyOption copy (m k), (c', w)) ∧ c'.Bare copy m := by
  obtain rfl := h.mapped
  obtain rfl := h.copies
  cases hk : c.entries.get? k with
  | none =>
    have hloader : c.loader? = none := by simp [loader?, h.loader]
    refine ⟨c.countMiss, ?_, h.count _⟩
    rw [run_get_of_unmapped h.opened hk, hloader, copyOption]
  | some u =>
    rw [copyOption]
    cases hcopy : c.copy u with
    | error e => exact ⟨c, run_get_of_no_copy h.opened hk hcopy w, h⟩
    | ok x => exact ⟨c.countHit, run_get_of_copied h.opened hk hcopy w, h.count _⟩

theorem run_writeThrough (h : c.Bare copy m) (k : κ) (v : α) (w : ω) :
    (writeThrough k v).run (c, w) = (.ok (), (c, w)) := by
  have hwriter : c.writer? = none := by simp [writer?, h.writer]
  rw [Cache.run_writeThrough, hwriter]

theorem put (h : c.Bare copy m) (hcopy : copy v = .ok u) (k : κ) (w : ω) :
    ∃ c', (Cache.put k v).run (c, w) = (.ok (), (c', w)) ∧ c'.Bare copy (m.put k u) := by
  obtain rfl := h.copies
  have hentered : (c.enter k u).countPut.Bare c.copy (m.put k u) :=
    ⟨h.opened, h.loader, h.writer, h.listeners, rfl,
      (FiniteMap.get?_insert_eq_update ..).trans (congrArg (Table.put · k u) h.mapped)⟩
  have htell := run_tellStored_of_no_listeners hentered.listeners k v (c.entries.get? k) w
  refine ⟨(c.enter k u).countPut, ?_, hentered⟩
  rw [Cache.put, Action.run_bind_of_ok (run_ensureOpen h.opened w), Action.run_discard,
    run_storeValue_of_written (h.run_writeThrough k v w) hcopy, Action.run_bind_of_ok htell]
  rfl

theorem put_of_no_copy {e : Error} (h : c.Bare copy m) (hcopy : copy v = .error e) (k : κ) (w : ω) :
    (Cache.put k v).run (c, w) = (.error e, (c, w)) := by
  obtain rfl := h.copies
  rw [Cache.put, Action.run_bind_of_ok (run_ensureOpen h.opened w), Action.run_discard,
    run_storeValue_of_no_copy (h.run_writeThrough k v w) hcopy]
  rfl

end Bare

end Cache

structure Keeping (c₀ : MethodCaches ω α) (t : Table Key (Except Error α))
    (c : MethodCaches ω α) : Prop where
  results : c.results.Bare c₀.results.copy (t.select Except.toOption)
  failures : c.failures.Bare c₀.failures.copy (t.select failure?)

namespace Keeping

open MethodCaches

variable {c₀ c : MethodCaches ω α} {t : Table Key (Except Error α)} {k : Key} {r u : Except Error α}
  {d : ResultDescriptor}

theorem getResult (h : Keeping c₀ t c) (k : Key) (w : ω) :
    ∃ c', (onResults.get k).run (c, w) =
        (copyOption c₀.results.copy (t.select Except.toOption k), (c', w)) ∧ Keeping c₀ t c' := by
  obtain ⟨results, hrun, hresults⟩ := h.results.get k w
  exact ⟨{ c with results := results }, run_onResults hrun, hresults, h.failures⟩

theorem getFailure (h : Keeping c₀ t c) (k : Key) (w : ω) :
    ∃ c', (onFailures.get k).run (c, w) =
        (copyOption c₀.failures.copy (t.select failure? k), (c', w)) ∧ Keeping c₀ t c' := by
  obtain ⟨failures, hrun, hfailures⟩ := h.failures.get k w
  exact ⟨{ c with failures := failures }, run_onFailures hrun, h.results, hfailures⟩

theorem kept (h : Keeping c₀ t c) (k : Key) (w : ω) :
    ∃ c', (ResultDescriptor.kept onResults (some onFailures) k).run (c, w) =
        (copyOption c₀.copy (t k), (c', w)) ∧ Keeping c₀ t c' := by
  obtain ⟨c₁, hget, h₁⟩ := h.getResult k w
  obtain ⟨c₂, hget', h₂⟩ := h₁.getFailure k w
  rw [Table.select] at hget hget'
  rw [ResultDescriptor.kept]
  cases hk : t k with
  | none =>
    rw [hk] at hget hget'
    exact ⟨c₂, (Action.run_bind_of_ok hget).trans (Action.run_bind_of_ok hget'), h₂⟩
  | some u =>
    rw [hk] at hget hget'
    rw [copyOption]
    cases u with
    | ok v =>
      change (onResults.get k).run (c, w) = ((c₀.results.copy v).map some, (c₁, w)) at hget
      rw [copy]
      cases hcopy : c₀.results.copy v with
      | error e =>
        rw [hcopy] at hget
        exact ⟨c₁, Action.run_bind_of_error hget, h₁⟩
      | ok x =>
        rw [hcopy] at hget
        exact ⟨c₁, Action.run_bind_of_ok hget, h₁⟩
    | error e =>
      change (onFailures.get k).run (c₁, w) = ((c₀.failures.copy e).map some, (c₂, w)) at hget'
      rw [copy, Action.run_bind_of_ok hget]
      cases hcopy : c₀.failures.copy e with
      | error x =>
        rw [hcopy] at hget'
        exact ⟨c₂, Action.run_bind_of_error hget', h₂⟩
      | ok x =>
        rw [hcopy] at hget'
        exact ⟨c₂, Action.run_bind_of_ok hget', h₂⟩

def put (k : Key) : Except Error α → Action (MethodCaches ω α × ω) Unit
  | .ok v => onResults.put k v
  | .error e => onFailures.put k e

theorem run_put (h : Keeping c₀ t c) (hk : t k = none) (hcopy : c₀.copy r = .ok u) (w : ω) :
    ∃ c', (put k r).run (c, w) = (.ok (), (c', w)) ∧ Keeping c₀ (t.put k u) c' := by
  cases r with
  | ok v =>
    obtain ⟨x, hx, rfl⟩ := exists_of_map_eq_ok hcopy
    obtain ⟨results, hrun, hresults⟩ := h.results.put hx k w
    refine ⟨{ c with results := results }, run_onResults hrun, ?_, ?_⟩
    · rw [Table.select_put (f := Except.toOption) rfl]
      exact hresults
    · rw [Table.select_put_of_none (f := failure?) rfl hk]
      exact h.failures
  | error e =>
    obtain ⟨x, hx, rfl⟩ := exists_of_map_eq_ok hcopy
    obtain ⟨failures, hrun, hfailures⟩ := h.failures.put hx k w
    refine ⟨{ c with failures := failures }, run_onFailures hrun, ?_, ?_⟩
    · rw [Table.select_put_of_none (f := Except.toOption) rfl hk]
      exact h.results
    · rw [Table.select_put (f := failure?) rfl]
      exact hfailures

theorem run_put_of_no_copy {e : Error} (h : Keeping c₀ t c) (hcopy : c₀.copy r = .error e) (k : Key)
    (w : ω) : (put k r).run (c, w) = (.error e, (c, w)) := by
  cases r with
  | ok v =>
    exact run_onResults (h.results.put_of_no_copy (eq_error_of_map hcopy) k w)
  | error e' =>
    exact run_onFailures (h.failures.put_of_no_copy (eq_error_of_map hcopy) k w)

theorem run_attempt_method {method : Action ω α} {w w' : ω} (hrun : method.run w = (r, w'))
    (c : MethodCaches ω α) :
    (method.beside (σ := MethodCaches ω α)).attempt.run (c, w) = (.ok r, (c, w')) := by
  rw [Action.run_attempt, Action.run_beside, hrun]

theorem run_of_toKeep (hkeep : d.ToKeep r) (k : Key) {method : Action ω α} {w w' : ω}
    (hrun : method.run w = (r, w')) (c : MethodCaches ω α) :
    (d.run onResults (some onFailures) k method.beside).run (c, w) =
      (put k r >>= fun _ => .ofExcept r).run (c, w') := by
  rw [ResultDescriptor.run, Action.run_bind_of_ok (run_attempt_method hrun c)]
  cases r with
  | ok v => rfl
  | error e =>
    rw [ResultDescriptor.toKeep_error_iff] at hkeep
    simp only [hkeep, if_true]
    rfl

theorem run_of_not_toKeep (hkeep : ¬d.ToKeep r) (k : Key) {method : Action ω α} {w w' : ω}
    (hrun : method.run w = (r, w')) (c : MethodCaches ω α) :
    (d.run onResults (some onFailures) k method.beside).run (c, w) = (r, (c, w')) := by
  rw [ResultDescriptor.run, Action.run_bind_of_ok (run_attempt_method hrun c)]
  cases r with
  | ok v => exact absurd trivial hkeep
  | error e =>
    rw [ResultDescriptor.toKeep_error_iff, Bool.not_eq_true] at hkeep
    simp only [hkeep]
    rfl

theorem run (h : Keeping c₀ t c) (hk : t k = none) (d : ResultDescriptor)
    {method : Action ω α} {w w' : ω} (hrun : method.run w = (r, w')) :
    ∃ a t' c', (d.run onResults (some onFailures) k method.beside).run (c, w) = (a, (c', w')) ∧
      d.Answers c₀ r a ∧ (∀ j u, t' j = some u ↔ t j = some u ∨ k = j ∧ d.Keeps c₀ r u) ∧
      Keeping c₀ t' c' := by
  by_cases hkeep : d.ToKeep r
  · rw [run_of_toKeep hkeep k hrun]
    cases hcopy : c₀.copy r with
    | ok x =>
      obtain ⟨c', hput, h'⟩ := h.run_put hk hcopy w'
      refine ⟨r, t.put k x, c', Action.run_bind_of_ok hput, .own fun e he => ?_, fun j u => ?_, h'⟩
      · cases hcopy.symm.trans he.2
      · rw [Table.put, Function.update_apply, ResultDescriptor.Keeps, hcopy]
        grind
    | error e =>
      refine ⟨.error e, t, c, Action.run_bind_of_error (h.run_put_of_no_copy hcopy k w'),
        .uncopied hkeep hcopy, fun j u => ?_, h⟩
      exact (or_iff_left fun hu => by cases hcopy.symm.trans hu.2.2).symm
  · refine ⟨r, t, c, run_of_not_toKeep hkeep k hrun c, .own fun e he => hkeep he.1,
      fun j u => ?_, h⟩
    exact (or_iff_left fun hu => hkeep hu.2.1).symm

theorem call (h : Keeping c₀ t c) (hskip : d.skipGet = false) (call : MethodCall ω α) (w : ω) :
    match t call.key with
    | some u => ∃ c', (d.call call).run (c, w) = (c₀.replay u, (c', w)) ∧ Keeping c₀ t c'
    | none =>
      let r := (call.method.run w).1
      ∃ a t' c', (d.call call).run (c, w) = (a, (c', (call.method.run w).2)) ∧ d.Answers c₀ r a ∧
        (∀ j u, t' j = some u ↔ t j = some u ∨ call.key = j ∧ d.Keeps c₀ r u) ∧
          Keeping c₀ t' c' := by
  obtain ⟨c₁, hkept, h₁⟩ := h.kept call.key w
  rw [ResultDescriptor.call, ResultDescriptor.invoke, if_neg (by simp [hskip])]
  cases hk : t call.key with
  | none =>
    rw [hk] at hkept
    rw [Action.run_bind_of_ok hkept]
    exact h₁.run hk d rfl
  | some u =>
    rw [hk, copyOption] at hkept
    refine ⟨c₁, ?_, h₁⟩
    rw [replay]
    cases hcopy : c₀.copy u with
    | error e =>
      rw [hcopy] at hkept
      exact Action.run_bind_of_error hkept
    | ok x =>
      rw [hcopy] at hkept
      rw [Action.run_bind_of_ok hkept]
      cases x <;> rfl

end Keeping

end EntryCache

import EntryCache.Completion
import Mathlib.Logic.Function.Basic

/-! Parties that meet at a future. Each of them looks at it under its lock, so calls that overlap
come down to looks one after the other. In whatever order these come, the first report decides what
every later look is answered. -/

namespace EntryCache.Completion

variable {ι : Type}

inductive Call : Type
  | complete
  | fail (e : Error)
  | isDone
  | isCancelled
  | cancel (mayInterrupt : Bool)
  | get
  | getTimeout (seconds nanos : Nat)

inductive Answer : Type
  | result (r : Except Error Unit)
  | flag (r : Except Error Bool)

namespace Call

def look (overdue : Bool) (c : Call) (future : Completion) : Option Answer × Completion :=
  match c with
  | .complete => let (r, future) := (finish .completed).run future; (some (.result r), future)
  | .fail e => let (r, future) := (finish (.failed e)).run future; (some (.result r), future)
  | .isDone => (some (.flag (.ok future.isDone)), future)
  | .isCancelled => (some (.flag (.ok future.isCancelled)), future)
  | .cancel mayInterrupt =>
    let (r, future) := (Completion.cancel mayInterrupt).run future
    (some (.flag r), future)
  | .get => (future.outcome?.map .result, future)
  | .getTimeout seconds nanos =>
    let answer :=
      if overdue then some (.result (future.waitFor (Span.shown seconds nanos)))
      else future.outcome?.map .result
    (answer, future)

def report? : Call → Option (Except Error Unit)
  | .complete => some (.ok ())
  | .fail e => some (.error e)
  | _ => none

end Call

structure Gathering (ι : Type) : Type where
  future : Completion
  waiting : ι → Option Call

inductive Event (ι : Type) : Type
  | call (p : ι) (c : Call) (overdue : Bool)
  | look (p : ι) (overdue : Bool)

structure Turn (ι : Type) : Type where
  party : ι
  call : Call
  overdue : Bool
  answer : Option Answer
  left : Completion

namespace Gathering

def new : Gathering ι := ⟨.pending, fun _ => none⟩

variable [DecidableEq ι]

def turn (s : Gathering ι) (p : ι) (c : Call) (overdue : Bool) : Turn ι × Gathering ι :=
  let (answer, future) := c.look overdue s.future
  let held := if answer.isSome then none else some c
  (⟨p, c, overdue, answer, future⟩, ⟨future, Function.update s.waiting p held⟩)

def step (s : Gathering ι) : Event ι → Option (Turn ι) × Gathering ι
  | .call p c overdue =>
    match s.waiting p with
    | none => (s.turn p c overdue).map some id
    | some _ => (none, s)
  | .look p overdue =>
    match s.waiting p with
    | some c => (s.turn p c overdue).map some id
    | none => (none, s)

def run (s : Gathering ι) : List (Event ι) → List (Turn ι) × Gathering ι
  | [] => ([], s)
  | e :: es =>
    let (turn?, s) := s.step e
    let (turns, s) := s.run es
    (turn?.toList ++ turns, s)

end Gathering

def firstReport (turns : List (Turn ι)) :
    Option (Except Error Unit) := turns.findSome? (·.call.report?)

theorem firstReport_cons (t : Turn ι) (ts : List (Turn ι)) :
    firstReport (t :: ts) = t.call.report?.or (firstReport ts) := by
  rw [firstReport, List.findSome?_cons]
  cases t.call.report? <;> rfl

def ofReport : Option (Except Error Unit) → Completion
  | none => .pending
  | some (.ok ()) => .completed
  | some (.error e) => .failed e

/-- What comes of a turn, by the first report that was made before it, if one was. -/
structure Told (first : Option (Except Error Unit)) (t : Turn ι) : Prop where
  left : t.left = ofReport (first.or t.call.report?)
  accepted : ∀ r, t.call.report? = some r → first = none → t.answer = some (.result (.ok ()))
  refused : ∀ r r', t.call.report? = some r → first = some r' →
    t.answer = some (.result (.error (.illegalState
      "Attempted to use a CompletionListenerFuture instance more than once")))
  isDone : t.call = .isDone → t.answer = some (.flag (.ok first.isSome))
  isCancelled : t.call = .isCancelled → t.answer = some (.flag (.ok false))
  cancel : ∀ mayInterrupt, t.call = .cancel mayInterrupt →
    t.answer = some (.flag (.error (.unsupported "CompletionListenerFuture cannot be cancelled")))
  get : t.call = .get → t.answer = first.map fun r => .result (r.mapError .execution)
  getTimeout : ∀ seconds nanos, t.call = .getTimeout seconds nanos →
    t.answer = match first with
      | some r => some (.result (r.mapError .execution))
      | none =>
        if t.overdue then
          some (.result
            (.error (.timeout ("operation did not complete within " ++ Span.shown seconds nanos))))
        else none

theorem told_look (first : Option (Except Error Unit)) (p : ι) (c : Call) (overdue : Bool) :
    let looked := c.look overdue (ofReport first)
    Told first ⟨p, c, overdue, looked.1, looked.2⟩ where
  left := by
    rcases first with _ | e | ⟨⟩ <;> cases c <;> rfl
  accepted := by
    rintro r hr rfl
    cases c with
    | complete => rfl
    | fail e => rfl
    | _ => cases hr
  refused := by
    rintro r r' hr rfl
    cases c with
    | complete => cases r' <;> rfl
    | fail e => cases r' <;> rfl
    | _ => cases hr
  isDone := by
    rintro rfl
    rcases first with _ | e | ⟨⟩ <;> rfl
  isCancelled := by
    rintro rfl
    rfl
  cancel := by
    rintro mayInterrupt rfl
    rfl
  get := by
    rintro rfl
    rcases first with _ | e | ⟨⟩ <;> rfl
  getTimeout := by
    rintro seconds nanos rfl
    rcases first with _ | e | ⟨⟩ <;> cases overdue <;> rfl

namespace Gathering

variable [DecidableEq ι] {s : Gathering ι} {first : Option (Except Error Unit)}

theorem step_cases (h : s.future = ofReport first) (e : Event ι) :
    s.step e = (none, s) ∨
      ∃ t s', s.step e = (some t, s') ∧ Told first t ∧
        s'.future = ofReport (first.or t.call.report?) := by
  have hturn : ∀ p c overdue, Told first (s.turn p c overdue).1 ∧
      (s.turn p c overdue).2.future = ofReport (first.or c.report?) := fun p c overdue => by
    have htold := told_look first p c overdue
    rw [← h] at htold
    exact ⟨htold, htold.left⟩
  cases e with
  | call p c overdue =>
    cases hp : s.waiting p with
    | some held => exact .inl (by rw [step, hp])
    | none => exact .inr ⟨_, _, by rw [step, hp]; rfl, hturn p c overdue⟩
  | look p overdue =>
    cases hp : s.waiting p with
    | none => exact .inl (by rw [step, hp])
    | some c => exact .inr ⟨_, _, by rw [step, hp]; rfl, hturn p c overdue⟩

theorem run_told (h : s.future = ofReport first) (events : List (Event ι)) :
    (s.run events).2.future = ofReport (first.or (firstReport (s.run events).1)) ∧
      ∀ before t after, (s.run events).1 = before ++ t :: after →
        Told (first.or (firstReport before)) t := by
  induction events generalizing s first with
  | nil =>
    refine ⟨h.trans (congrArg ofReport Option.or_none.symm), fun before t after hsplit => ?_⟩
    exact absurd hsplit.symm (List.append_ne_nil_of_right_ne_nil _ (List.cons_ne_nil _ _))
  | cons e es ih =>
    rcases step_cases h e with hstep | ⟨t, s', hstep, htold, hleft⟩ <;>
      simp only [run, hstep, Option.toList_none, Option.toList_some, List.nil_append,
        List.singleton_append]
    · exact ih h
    · obtain ⟨hfuture, hrest⟩ := ih hleft
      refine ⟨by rw [hfuture, Option.or_assoc, ← firstReport_cons], fun before u after hsplit => ?_⟩
      -- The first of the turns is this step's; every other one has it among those before.
      cases before with
      | nil =>
        obtain ⟨rfl, -⟩ := List.cons.inj hsplit
        rwa [firstReport, List.findSome?_nil, Option.or_none]
      | cons v before =>
        obtain ⟨rfl, htail⟩ := List.cons.inj hsplit
        rw [firstReport_cons, ← Option.or_assoc]
        exact hrest before u after htail

end Gathering

/-- In whatever order any parties call at a future, look at it again or run out of time: the future
is as the first report left it, and by that report every turn is decided. -/
theorem firstReport_decides [DecidableEq ι] (events : List (Event ι)) :
    let turns := (Gathering.new.run events).1
    (Gathering.new.run events).2.future = ofReport (firstReport turns) ∧
      ∀ before t after, turns = before ++ t :: after → Told (firstReport before) t := by
  have hnew : (Gathering.new : Gathering ι).future = ofReport none := rfl
  exact Gathering.run_told hnew events

theorem firstReport_decides_overlapping :
    let e : Error := .raised .loader "offline"
    let before : List (Event Nat) :=
      [.call 0 .get false, .call 1 (.getTimeout 0 20000000) false, .look 0 false,
      .look 1 true, .call 1 .isDone false, .call 2 (.fail e) false, .call 1 .complete false]
    let turns := (Gathering.new.run (before ++ [.look 0 false])).1
    turns.map (·.answer) =
        [none, none, none,
          some (.result (.error (.timeout "operation did not complete within 20ms"))),
          some (.flag (.ok false)), some (.result (.ok ())),
          some (.result (.error (.illegalState
            "Attempted to use a CompletionListenerFuture instance more than once"))),
          some (.result (.error (.execution e)))] ∧
      (∃ t, turns = (Gathering.new.run before).1 ++ [t] ∧ t.call = .get ∧
        Told (some (.error e)) t) := by
  intro e before turns
  refine ⟨rfl, _, rfl, rfl, ?_⟩
  exact (firstReport_decides (before ++ [.look 0 false])).2 (Gathering.new.run before).1 _ [] rfl

end EntryCache.Completion

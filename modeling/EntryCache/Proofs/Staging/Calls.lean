import EntryCache.Proofs.Action.Keeps
import EntryCache.StagedEntry

namespace EntryCache

inductive Call (α : Type) : Type
  | value
  | present
  | set (v : α)
  | remove
  deriving DecidableEq

inductive Answer (α : Type) : Type
  | value (v : Option α)
  | truth (b : Bool)
  | done
  deriving DecidableEq

variable {ω σ α β γ : Type}

def Call.isRead : Call α → Bool
  | .value => true
  | .present => true
  | .set _ => false
  | .remove => false

def Call.answerAll (answer : Call α → σ → Answer α × σ) : List (Call α) → σ → List (Answer α) × σ
  | [], s => ([], s)
  | c :: cs, s =>
    let (a, s) := answer c s
    let (as, s) := answerAll answer cs s
    (a :: as, s)

theorem Call.answerAll_append (answer : Call α → σ → Answer α × σ) (cs ds : List (Call α)) (s : σ) :
    answerAll answer (cs ++ ds) s =
      ((answerAll answer cs s).1 ++ (answerAll answer ds (answerAll answer cs s).2).1,
        (answerAll answer ds (answerAll answer cs s).2).2) := by
  induction cs generalizing s with
  | nil => rfl
  | cons c cs ih => simp [answerAll, ih]

@[simp] theorem Call.length_answerAll (answer : Call α → σ → Answer α × σ)
    (cs : List (Call α)) (s : σ) : (answerAll answer cs s).1.length = cs.length := by
  induction cs generalizing s with
  | nil => rfl
  | cons c cs ih => simp [answerAll, ih]

def Processor.ofCalls : List (Call α) → Processor α (List (Answer α))
  | [] => .done (.ok [])
  | .value :: cs => .value fun v => (ofCalls cs).map (Except.map (.value v :: ·))
  | .present :: cs => .present fun b => (ofCalls cs).map (Except.map (.truth b :: ·))
  | .set v :: cs => .set v ((ofCalls cs).map (Except.map (.done :: ·)))
  | .remove :: cs => .remove ((ofCalls cs).map (Except.map (.done :: ·)))

namespace StagedEntry

variable (load : Option (Action ω (Option α)))

def answer : Call α → StagedEntry α × ω → Answer α × StagedEntry α × ω
  | .value, (s, w) =>
    let (v, s, w) := s.read load w
    (.value v, s, w)
  | .present, (s, w) => (.truth s.present, s, w)
  | .set v, (s, w) => (.done, s.set v, w)
  | .remove, (s, w) => (.done, s.remove, w)

def calls : Processor α β → StagedEntry α → ω → List (Call α)
  | .done _, _, _ => []
  | .value next, s, w =>
    let (v, s, w) := s.read load w
    .value :: calls (next v) s w
  | .present next, s, w => .present :: calls (next s.present) s w
  | .set v next, s, w => .set v :: calls next (s.set v) w
  | .remove next, s, w => .remove :: calls next s.remove w

theorem run_map (f : Except Error β → Except Error γ) (p : Processor α β)
    (s : StagedEntry α) (w : ω) :
    run load (p.map f) s w = (f (run load p s w).1, (run load p s w).2) := by
  induction p generalizing s w with
  | done r => rfl
  | value next ih => exact ih ..
  | present next ih => exact ih ..
  | set v next ih => exact ih ..
  | remove next ih => exact ih ..

theorem run_ofCalls (cs : List (Call α)) (s : StagedEntry α) (w : ω) :
    run load (.ofCalls cs) s w =
      (.ok (Call.answerAll (answer load) cs (s, w)).1,
        (Call.answerAll (answer load) cs (s, w)).2) := by
  induction cs generalizing s w with
  | nil => rfl
  | cons c cs ih =>
    cases c <;> simp only [Processor.ofCalls, run, run_map, ih, Call.answerAll, answer] <;> rfl

theorem run_calls (p : Processor α β) (s : StagedEntry α) (w : ω) :
    (run load p s w).2 = (Call.answerAll (answer load) (calls load p s w) (s, w)).2 := by
  induction p generalizing s w with
  | done r => rfl
  | value next ih => exact ih ..
  | present next ih => exact ih ..
  | set v next ih => exact ih ..
  | remove next ih => exact ih ..

variable {load} {I : ω → Prop}

theorem keeps_read (h : ∀ l ∈ load, Action.Keeps I l) (s : StagedEntry α) {w : ω} (hw : I w) :
    I (s.read load w).2.2 := by
  unfold read
  split
  · exact hw
  · next l _ _ => exact h l rfl w hw
  · exact hw

theorem keeps_run (h : ∀ l ∈ load, Action.Keeps I l) (p : Processor α β) (s : StagedEntry α) {w : ω}
    (hw : I w) : I (run load p s w).2.2 := by
  induction p generalizing s w with
  | done r => exact hw
  | value next ih => exact ih _ _ (keeps_read h s hw)
  | present next ih => exact ih _ _ hw
  | set v next ih => exact ih _ hw
  | remove next ih => exact ih _ hw

end StagedEntry

end EntryCache

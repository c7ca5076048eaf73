import EntryCache.Action

namespace EntryCache

structure CompletionListener (ω : Type) : Type where
  onCompletion : Action ω Unit
  onException : Error → Action ω Unit

inductive Completion : Type
  | pending
  | completed
  | failed (e : Error)

namespace Completion

def isDone : Completion → Bool
  | .pending => false
  | _ => true

def finish (c : Completion) : Action Completion Unit := fun s =>
  match s with
  | .pending => (.ok (), c)
  | s => (.error (.illegalState
      "Attempted to use a CompletionListenerFuture instance more than once"), s)

def listener {ω : Type} (get : ω → Completion) (put : Completion → ω → ω) :
    CompletionListener ω where
  onCompletion := (finish .completed).focus get put
  onException e := (finish (.failed e)).focus get put

def outcome? : Completion → Option (Except Error Unit)
  | .pending => none
  | .completed => some (.ok ())
  | .failed e => some (.error (.execution e))

def waitFor (timeout : String) (c : Completion) : Except Error Unit :=
  c.outcome?.getD
    (.error (.timeout ("operation did not complete within " ++ timeout)))

def cancel (_mayInterrupt : Bool) : Action Completion Bool :=
  .fail (.unsupported "CompletionListenerFuture cannot be cancelled")

def isCancelled (_ : Completion) : Bool := false

end Completion

namespace Span

def fraction (n places : Nat) : String :=
  let unit := Nat.pow 10 places
  let digits := Nat.toDigits 10 (n % unit)
  let padded := List.replicate (places - digits.length) '0' ++ digits
  match (padded.reverse.dropWhile (· = '0')).reverse with
  | [] => toString (n / unit)
  | ds => toString (n / unit) ++ "." ++ String.ofList ds

def shown (seconds nanos : Nat) : String :=
  if 0 < seconds + nanos / 1000000000 then fraction (seconds * 1000000000 + nanos) 9 ++ "s"
  else if 1000000 ≤ nanos then fraction nanos 6 ++ "ms"
  else if 1000 ≤ nanos then fraction nanos 3 ++ "µs"
  else toString nanos ++ "ns"

end Span

end EntryCache

import EntryCache.Event
import EntryCache.Proofs.Backing.Store

namespace EntryCache.Event

variable {κ α : Type} [DecidableEq κ] [DecidableEq α]

def fits (m : Table κ α) (e : Event κ α) : Bool :=
  match e.type with
  | .created => (m e.key).isNone && e.value.isSome && e.oldValue.isNone
  | .updated => (m e.key).isSome && e.value.isSome && e.oldValue = m e.key
  | .removed => (m e.key).isSome && e.value = m e.key && e.oldValue = m e.key
  | .expired => false

def effect (m : Table κ α) (e : Event κ α) : Table κ α :=
  Function.update m e.key (if e.type = .removed then none else e.value)

def replay : Table κ α → List (Event κ α) → Option (Table κ α)
  | m, [] => some m
  | m, e :: es => if e.fits m then replay (e.effect m) es else none

theorem replay_append (m : Table κ α) (es fs : List (Event κ α)) :
    replay m (es ++ fs) = (replay m es).bind fun m' => replay m' fs := by
  induction es generalizing m with
  | nil => rfl
  | cons e es ih =>
    simp only [List.cons_append, replay]
    split
    · exact ih _
    · rfl

theorem replay_snoc {m m' : Table κ α} {es : List (Event κ α)} {e : Event κ α}
    (h : replay m es = some m')
    (he : e.fits m' = true) : replay m (es ++ [e]) = some (e.effect m') := by
  simp [replay_append, h, replay, he]

end EntryCache.Event

import EntryCache.Proofs.Action.Keeps
import EntryCache.Proofs.Cache.Changes

/-! Properties of steps that are closed under putting steps together. An operation has such a
property if the steps which it is made of have it; what they are is looked at here once for all
operations that read, store and remove. -/

namespace EntryCache.Cache

variable {ω κ α β γ : Type} [DecidableEq κ] {R : (γ : Type) → Op ω κ α γ → Prop}

structure Compositional (R : (γ : Type) → Op ω κ α γ → Prop) : Prop where
  pure : ∀ {γ : Type} (x : γ), R γ (pure x)
  bind : ∀ {β γ : Type} {op : Op ω κ α β} {f : β → Op ω κ α γ}, R β op → (∀ x, R γ (f x)) →
    R γ (op >>= f)
  opens : R Unit ensureOpen
  looks : ∀ {γ : Type} (f : Cache ω κ α → γ), R γ (look f)
  copies : ∀ v, R α (copied v)
  stores : ∀ k v, R (Option α) (storeValue k v)
  deletes : ∀ k, R (Option α) (deleteValue k)

theorem Op.run_as (f : γ → Reply κ α β) (op : Op ω κ α γ) (s : Cache ω κ α × ω) :
    (op.as f).run s = ((op.run s).1.map f, (op.run s).2) := Action.run_bind_pure op f s

def Operation.Edits : Operation ω κ α β → Prop
  | .containsKey _ | .entries => True
  | .put _ _ | .getAndPut _ _ | .putAll _ | .putIfAbsent _ _ => True
  | .replaceIfEquals _ _ _ | .replace _ _ | .getAndReplace _ _ => True
  | .remove _ | .removeIfEquals _ _ | .getAndRemove _ | .removeKeys _ | .removeAll => True
  | _ => False

namespace Compositional

theorem opened (h : Compositional R) {op : Op ω κ α γ} (hop : R γ op) :
    R γ (ensureOpen >>= fun _ => op) :=
  h.bind h.opens fun _ => hop

theorem then_pure (h : Compositional R) {op : Op ω κ α β} (hop : R β op) (f : β → γ) :
    R γ (op >>= fun x => Pure.pure (f x)) := h.bind hop fun _ => h.pure _

theorem discard (h : Compositional R) {op : Op ω κ α β} (hop : R β op) : R Unit (discard op) :=
  h.then_pure hop fun _ => ()

theorem forEach (h : Compositional R) {f : β → Op ω κ α Unit} (hf : ∀ x, R Unit (f x))
    (xs : List β) : R Unit (Action.forEach f xs) := by
  induction xs with
  | nil => exact h.pure ()
  | cons x xs ih => exact h.bind (hf x) fun _ => ih

theorem collect (h : Compositional R) {f : β → Op ω κ α γ} (hf : ∀ x, R γ (f x)) (xs : List β) :
    R (List γ) (collect f xs) := by
  induction xs with
  | nil => exact h.pure []
  | cons x xs ih => exact h.bind (hf x) fun y => h.then_pure ih fun ys => y :: ys

theorem put (h : Compositional R) (k : κ) (v : α) :
    R Unit (put k v) := h.opened (h.discard (h.stores k v))

theorem putIfAbsent (h : Compositional R) (k : κ) (v : α) : R Bool (putIfAbsent k v) := by
  apply h.opened
  refine h.bind (h.looks _) fun mapped => ?_
  cases mapped with
  | true => exact h.pure false
  | false => exact h.then_pure (h.discard (h.stores k v)) fun _ => true

theorem removeIfEquals [DecidableEq α] (h : Compositional R) (k : κ) (old : α) :
    R Bool (removeIfEquals k old) := by
  apply h.opened
  refine h.bind (h.looks _) fun v => ?_
  split
  · exact h.then_pure (h.discard (h.deletes k)) fun _ => true
  · exact h.pure false

theorem replaceIfEquals [DecidableEq α] (h : Compositional R) (k : κ) (old new : α) :
    R Bool (replaceIfEquals k old new) := by
  apply h.opened
  refine h.bind (h.looks _) fun v => ?_
  split
  · exact h.then_pure (h.discard (h.stores k new)) fun _ => true
  · exact h.pure false

theorem getAndReplace (h : Compositional R) (k : κ) (v : α) : R (Option α) (getAndReplace k v) := by
  apply h.opened
  refine h.bind (h.looks _) fun mapped => ?_
  cases mapped with
  | true => exact h.stores k v
  | false => exact h.pure none

theorem putAll (h : Compositional R) (es : List (κ × α)) : R Unit (putAll es) := by
  apply h.opened
  exact h.forEach (fun p => h.discard (h.stores p.1 p.2)) es

theorem removeKeys (h : Compositional R) (ks : List κ) : R Unit (removeKeys ks) := by
  apply h.opened
  exact h.forEach (fun k => h.discard (h.deletes k)) ks

theorem removeAll (h : Compositional R) : R Unit removeAll := by
  apply h.opened
  exact h.bind (h.looks _) (h.forEach fun k => h.discard (h.deletes k))

theorem listEntries (h : Compositional R) : R (List (κ × α)) listEntries := by
  apply h.opened
  exact h.bind (h.looks _) (h.collect fun p => h.then_pure (h.copies p.2) fun u => (p.1, u))

theorem run [DecidableEq α] (h : Compositional R) {op : Operation ω κ α β} (hop : op.Edits) :
    R (Reply κ α β) (op.run id) := by
  cases op with
  | containsKey k => exact h.then_pure (h.opened (h.looks _)) _
  | entries => exact h.then_pure h.listEntries _
  | put k v => exact h.then_pure (h.put k v) _
  | getAndPut k v => exact h.then_pure (h.opened (h.stores k v)) _
  | putAll es => exact h.then_pure (h.putAll es) _
  | putIfAbsent k v => exact h.then_pure (h.putIfAbsent k v) _
  | replaceIfEquals k old new => exact h.then_pure (h.replaceIfEquals k old new) _
  | replace k v => exact h.then_pure (h.then_pure (h.getAndReplace k v) _) _
  | getAndReplace k v => exact h.then_pure (h.getAndReplace k v) _
  | remove k => exact h.then_pure (h.opened (h.then_pure (h.deletes k) _)) _
  | removeIfEquals k old => exact h.then_pure (h.removeIfEquals k old) _
  | getAndRemove k => exact h.then_pure (h.opened (h.deletes k)) _
  | removeKeys ks => exact h.then_pure (h.removeKeys ks) _
  | removeAll => exact h.then_pure h.removeAll _
  | _ => exact hop.elim

theorem getEach (h : Compositional R) (hget : ∀ k, R (Option α) (get k)) (ks : List κ)
    (found : FiniteMap κ α) : R (FiniteMap κ α) (getEach found ks) := by
  induction ks generalizing found with
  | nil => exact h.pure found
  | cons k ks ih =>
    refine h.bind (hget k) fun v => ?_
    cases v with
    | some v => exact ih _
    | none => exact ih _

theorem getOrPutWith (h : Compositional R) {k : κ} (hget : R (Option α) (get k))
    {compute : κ → Action ω α}
    (hcompute : R α (compute k).beside) : R α (getOrPutWith k compute) := by
  refine h.bind hget fun v => ?_
  cases v with
  | some v => exact h.pure v
  | none => exact h.bind hcompute fun v => h.then_pure (h.put k v) fun _ => v

end Compositional

end EntryCache.Cache

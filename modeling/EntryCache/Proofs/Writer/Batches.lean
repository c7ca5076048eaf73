import EntryCache.Proofs.Cache.Recording

namespace EntryCache

variable {ω κ α β γ : Type}

def Action.notedAs (call : γ) (a : Action ω Unit) :
    Action (ω × List (γ × Except Error Unit)) Unit := fun s =>
  let (r, w) := a s.1
  (r, (w, s.2 ++ [(call, r)]))

def Writer.noted (wr : Writer ω κ α) :
    Writer (ω × List (WriterCall κ α × Except Error Unit)) κ α where
  write k v := (wr.write k v).notedAs (.write k v)
  delete k := (wr.delete k).notedAs (.delete k)

/-- The calls for the items of a batch with their answers, the result, and what is left of the
batch. -/
inductive Split (call : β → γ) (batch : List β) :
    List (γ × Except Error Unit) → Except Error Unit × List β → Prop
  | handled : Split call batch (batch.map fun x => (call x, .ok ())) (.ok (), [])
  | stopped {done more : List β} {x : β} {e : Error} (parts : batch = done ++ x :: more) :
    Split call batch (done.map (fun x => (call x, .ok ())) ++ [(call x, .error e)])
      (.error e, x :: more)

namespace Split

variable {call : β → γ} {batch : List β} {x : β} {calls : List (γ × Except Error Unit)}
  {out : Except Error Unit × List β}

theorem cons (x : β) (h : Split call batch calls out) :
    Split call (x :: batch) ((call x, .ok ()) :: calls) out := by
  cases h with
  | handled => exact @handled _ _ call (x :: batch)
  | @stopped done more y e parts =>
      exact @stopped _ _ call _ (x :: done) more y e (congrArg (x :: ·) parts)

theorem first (call : β → γ) (x : β) (batch : List β) (e : Error) :
    Split call (x :: batch) [(call x, .error e)] (.error e, x :: batch) :=
  @stopped _ _ call _ [] batch x e rfl

end Split

theorem drain_noted (call : β → γ) (f : β → Action ω Unit) (batch : List β) (w : ω)
    (before : List (γ × Except Error Unit)) :
    ∃ calls, Split call batch calls (drain f batch w).1 ∧
      drain (fun x => (f x).notedAs (call x)) batch (w, before) =
        ((drain f batch w).1, ((drain f batch w).2, before ++ calls)) := by
  induction batch generalizing w before with
  | nil =>
    refine ⟨[], .handled, ?_⟩
    rw [drain_nil, drain_nil, List.append_nil]
  | cons x batch ih =>
    rcases hx : f x w with ⟨e | ⟨⟩, w₁⟩
    · have hnoted : (f x).notedAs (call x) (w, before) =
          (.error e, (w₁, before ++ [(call x, .error e)])) := by
        simp only [Action.notedAs, hx]
      rw [drain_cons_of_error hx, drain_cons_of_error (f := fun x => (f x).notedAs (call x)) hnoted]
      exact ⟨_, .first call x batch e, rfl⟩
    · have hnoted : (f x).notedAs (call x) (w, before) =
          (.ok (), (w₁, before ++ [(call x, .ok ())])) := by
        simp only [Action.notedAs, hx]
      rw [drain_cons_of_ok hx, drain_cons_of_ok (f := fun x => (f x).notedAs (call x)) hnoted]
      obtain ⟨calls, hsplit, hdrain⟩ := ih w₁ (before ++ [(call x, .ok ())])
      exact ⟨_, hsplit.cons x, by rw [hdrain, List.append_assoc]; rfl⟩

/-- A batch is written, or deleted, item by item up to the first failure, whatever the writer
answers at each call; the record of the calls is that of a writer that answers and does the same. -/
theorem Writer.batches_split (wr : Writer ω κ α) (entries : List (κ × α)) (keys : List κ) (w : ω) :
    (∃ calls, Split (fun p => WriterCall.write p.1 p.2) entries calls (wr.writeAll entries w).1 ∧
      wr.noted.writeAll entries (w, []) =
        ((wr.writeAll entries w).1, ((wr.writeAll entries w).2, calls))) ∧
    ∃ calls, Split WriterCall.delete keys calls (wr.deleteAll keys w).1 ∧
      wr.noted.deleteAll keys (w, []) =
        ((wr.deleteAll keys w).1, ((wr.deleteAll keys w).2, calls)) :=
  ⟨drain_noted (fun p => WriterCall.write p.1 p.2) (fun p => wr.write p.1 p.2) entries w [],
    drain_noted WriterCall.delete wr.delete keys w []⟩

end EntryCache

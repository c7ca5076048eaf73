import EntryCache.Proofs.Json.RoundTrip

namespace EntryCache.Json

variable {α β : Type}

def answer (out : Option α) (rest : List Char) : Except Refusal (α × List Char) :=
  match out with
  | some a => .ok (a, rest)
  | none => .error .malformed

def Gives (r : Reader α) (cs : List Char) (out : Option α) : Prop :=
  ∀ rest, Ends rest → r.run (cs ++ rest) = answer out rest

theorem Reads.gives {r : Reader α} {cs : List Char} {a : α} (h : Reads r cs a) :
    Gives r cs (some a) := h

theorem Gives.map {r : Reader α} {cs : List Char} {out : Option α} (f : α → β)
    (h : Gives r cs out) : Gives (f <$> r) cs (out.map f) := by
  intro rest hrest
  rw [StateT.run_map, h rest hrest]
  cases out <;> rfl

theorem run_bind_of_error {r : Reader α} {f : α → Reader β} {s : List Char} {e : Refusal}
    (h : r.run s = .error e) : (r >>= f).run s = .error e := by
  rw [StateT.run_bind, h]
  rfl

theorem run_bind_of_answer {r : Reader α} {k : α → Reader β} {s rest rest' : List Char}
    {out : Option α} {h : α → Option β} (hr : r.run s = answer out rest)
    (hk : ∀ a, (k a).run rest = answer (h a) rest') :
    (r >>= k).run s = answer (out.bind h) rest' := by
  cases out with
  | none => exact run_bind_of_error hr
  | some a => exact (run_bind_of_ok hr).trans (hk a)

theorem ends_bracket (rest : List Char) : Ends (']' :: rest) := by simp [Ends]

def gather (item : Reader α) (xs : List α) : Reader (List α) := do return (← item) :: xs

variable {item : Reader α} {f : β → List Char} {g : β → Option α}

theorem run_item {s t : List Char} {first : Bool}
    (hmore : (more ']' first).run s = .ok (true, t)) (n : Nat) (xs : List α) :
    (itemsFrom (gather item) (n + 1) first xs).run s =
      (item >>= fun x => itemsFrom (gather item) n false (x :: xs)).run t := by
  rw [itemsFrom, run_bind_of_ok hmore]
  simp only [if_true, gather, bind_assoc, pure_bind]

def itemsAfter (css : List (List Char)) : List Char := css.flatMap fun cs => ',' :: cs

theorem length_le_itemsAfter (css : List (List Char)) : css.length ≤ (itemsAfter css).length := by
  induction css with
  | nil => exact Nat.le_refl 0
  | cons cs css ih =>
    simp only [itemsAfter, List.flatMap_cons, List.length_append, List.length_cons] at ih ⊢
    omega

theorem ends_itemsAfter (css : List (List Char)) (rest : List Char) :
    Ends (itemsAfter css ++ ']' :: rest) := by
  cases css with
  | nil => exact ends_bracket rest
  | cons cs css => exact ends_comma _

theorem intercalate_items (cs : List Char) (css : List (List Char)) :
    [','].intercalate (cs :: css) = cs ++ itemsAfter css := by
  induction css generalizing cs with
  | nil => simp [itemsAfter]
  | cons ds css ih =>
    rw [List.intercalate_cons_cons, ih]
    simp [itemsAfter]

theorem run_itemsAfter {ys : List β} (h : ∀ y ∈ ys, Gives item (f y) (g y))
    (hstarts : ∀ y ∈ ys, Starts (f y)) {n : Nat}
    (hn : ys.length < n) (xs : List α) (rest : List Char) :
    (itemsFrom (gather item) n false xs).run (itemsAfter (ys.map f) ++ ']' :: rest) =
      answer ((ys.mapM g).map (·.reverse ++ xs)) rest := by
  induction ys generalizing n xs with
  | nil =>
    obtain ⟨n, rfl⟩ : ∃ k, n = k + 1 := ⟨n - 1, by omega⟩
    change (itemsFrom (gather item) (n + 1) false xs).run (']' :: rest) = _
    rw [itemsFrom, run_bind_of_ok (run_more_close rfl _ _)]
    rfl
  | cons y ys ih =>
    obtain ⟨hy, hys⟩ := List.forall_mem_cons.1 h
    obtain ⟨⟨c, ds, hcs, hspace, hclose⟩, hstarts⟩ := List.forall_mem_cons.1 hstarts
    obtain ⟨n, rfl⟩ : ∃ k, n = k + 1 := ⟨n - 1, by omega⟩
    have htext : itemsAfter ((y :: ys).map f) ++ ']' :: rest =
        ',' :: (f y ++ (itemsAfter (ys.map f) ++ ']' :: rest)) := by simp [itemsAfter]
    have hmore : (more ']' false).run (',' :: (f y ++ (itemsAfter (ys.map f) ++ ']' :: rest))) =
        .ok (true, f y ++ (itemsAfter (ys.map f) ++ ']' :: rest)) := by
      rw [hcs]
      exact run_more_next hspace hclose (by decide) _
    have hrest := fun x => ih hys hstarts (by simpa using hn) (x :: xs)
    rw [htext, run_item hmore, run_bind_of_answer (hy _ (ends_itemsAfter _ rest)) hrest,
      List.mapM_cons]
    cases g y <;> cases ys.mapM g <;> simp

theorem run_items {ys : List β} (h : ∀ y ∈ ys, Gives item (f y) (g y))
    (hstarts : ∀ y ∈ ys, Starts (f y)) (rest : List Char) :
    (items (gather item) []).run ([','].intercalate (ys.map f) ++ ']' :: rest) =
      answer ((ys.mapM g).map List.reverse) rest := by
  change (itemsFrom (gather item) (List.length _ + 1) true []).run _ = _
  cases ys with
  | nil =>
    change (itemsFrom (gather item) (List.length _ + 1) true []).run (']' :: rest) = _
    rw [itemsFrom, run_bind_of_ok (run_more_close rfl _ _)]
    rfl
  | cons y ys =>
    obtain ⟨hy, hys⟩ := List.forall_mem_cons.1 h
    obtain ⟨⟨c, ds, hcs, hspace, hclose⟩, hstarts⟩ := List.forall_mem_cons.1 hstarts
    have hfuel := length_le_itemsAfter (ys.map f)
    rw [List.map_cons, intercalate_items, List.append_assoc]
    have hmore : (more ']' true).run (f y ++ (itemsAfter (ys.map f) ++ ']' :: rest)) =
        .ok (true, f y ++ (itemsAfter (ys.map f) ++ ']' :: rest)) := by
      rw [hcs]
      exact run_more_first hspace hclose _
    have hrest := fun x => run_itemsAfter hys hstarts
      (n := (f y ++ (itemsAfter (ys.map f) ++ ']' :: rest)).length)
        (by simp at hfuel ⊢; omega) [x] rest
    rw [run_item hmore, run_bind_of_answer (hy _ (ends_itemsAfter _ rest)) hrest, List.mapM_cons]
    cases g y <;> cases ys.mapM g <;> simp

theorem gives_readList {item : Nat → Reader α} {d : Nat} {ys : List β}
    (h : ∀ y ∈ ys, Gives (item d) (f y) (g y)) (hstarts : ∀ y ∈ ys, Starts (f y)) :
      Gives (readList item (d + 1)) (writeArray (ys.map f)) (ys.mapM g) := by
  intro rest _
  have htext : writeArray (ys.map f) ++ rest =
    '[' :: ([','].intercalate (ys.map f) ++ ']' :: rest) :=
    List.append_assoc ('[' :: _) [']'] rest
  rw [htext, readList, nested, run_bind_of_ok (run_symbol rfl _)]
  have hpure : ∀ xs : List α, (pure xs.reverse : Reader (List α)).run rest =
    answer (some xs.reverse) rest :=
    fun _ => rfl
  refine (run_bind_of_answer (run_items h hstarts rest) hpure).trans ?_
  cases ys.mapM g with
  | none => rfl
  | some zs => simp

theorem gives_readList_none (item : Nat → Reader α) (css : List (List Char)) :
    Gives (readList item 0) (writeArray css) none := fun _ _ => rfl

variable {plain : String → Option α} {held : String → Option ((depth : Nat) → Reader α)}
  {name : String}

theorem gives_choice {r : Nat → Reader α} {d : Nat} {cs : List Char} {out : Option α}
    (hheld : held name = some r) (h : Gives (r d) cs out) :
    Gives (choice plain held (d + 1)) (writeObject [(name, cs)]) out := by
  intro rest _
  have htext : writeObject [(name, cs)] ++ rest =
      '\x7b' :: (writeChars name.toList ++ (':' :: (cs ++ '\x7d' :: rest))) := by
        simp [writeObject, writeList]
  have hclose : ∀ a, (do symbol '\x7d'; return a : Reader α).run ('\x7d' :: rest) =
      answer (some a) rest := fun a => by
    rw [run_bind_of_ok (run_symbol rfl rest)]
    rfl
  rw [htext, choice, run_bind_of_ok (run_peek rfl _)]
  simp only [nested]
  rw [run_bind_of_ok (run_symbol rfl _), run_bind_of_ok (run_text name _),
    run_bind_of_ok (run_symbol rfl _), hheld]
  exact (run_bind_of_answer (h _ (ends_brace rest)) hclose).trans (by rw [Option.bind_fun_some])

theorem gives_choice_none (ms : List (String × List Char)) :
    Gives (choice plain held 0) (writeObject ms) none := by
  intro rest _
  exact run_bind_of_ok (run_peek rfl _)

theorem gives_bytes (d : Nat) (bs : List UInt8) :
    Gives (Form.read d) (Form.write bs) (if 1 ≤ d then some bs else none) := by
  cases d with
  | zero => exact gives_readList_none _ _
  | succ d =>
    have hread := gives_readList (fun b (_ : b ∈ bs) => (roundTrips_uint8 d b).gives) fun b _ =>
      starts_writeInt b.toNat
    have hall : bs.mapM some = some bs := by
      simpa using List.mapM_pure (m := Option) (f := id) (l := bs)
    rw [hall] at hread
    rwa [if_pos (Nat.le_add_left 1 d)]

theorem read_write_of_gives [Form α] {a : α} {out : Option α}
    (h : Gives (Form.read depthLimit) (Form.write a) out) :
    read (write a) = (answer out []).map Prod.fst := by
  have hrun := h [] ends_nil
  rw [List.append_nil] at hrun
  rw [read, wholeText, write, String.toList_ofList, hrun]
  cases out <;> rfl

end EntryCache.Json

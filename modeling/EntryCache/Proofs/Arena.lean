import Mathlib.Data.List.Basic

namespace EntryCache

variable {τ : Type} {xs : List τ} {x y z : τ} {i j : Nat}

theorem getElem?_snoc_of_some (h : xs[i]? = some y) (x : τ) : (xs ++ [x])[i]? = some y := by
  obtain ⟨hlt, -⟩ := List.getElem?_eq_some_iff.1 h
  exact (List.getElem?_append_left hlt).trans h

theorem getElem?_snoc (h : (xs ++ [x])[i]? = some y) : xs[i]? = some y ∨ i = xs.length ∧ x = y := by
  rcases Nat.lt_or_ge i xs.length with hlt | hge
  · exact .inl ((List.getElem?_append_left hlt).symm.trans h)
  · obtain ⟨hlt, -⟩ := List.getElem?_eq_some_iff.1 h
    rw [List.length_append, List.length_singleton] at hlt
    obtain rfl : i = xs.length := by omega
    exact .inr ⟨rfl, Option.some.inj (List.getElem?_concat_length.symm.trans h)⟩

theorem getElem?_set_of_some (h : xs[i]? = some y) (z : τ) (j : Nat) :
    (xs.set i z)[j]? = if i = j then some z else xs[j]? := by
  obtain ⟨hlt, -⟩ := List.getElem?_eq_some_iff.1 h
  rw [List.getElem?_set]
  simp only [if_pos hlt]

theorem set_of_getElem?_eq_some (h : xs[i]? = some y) : xs.set i y = xs := by
  obtain ⟨hlt, rfl⟩ := List.getElem?_eq_some_iff.1 h
  exact List.set_getElem_self hlt

def modifyEach (f : τ → τ) (places : List Nat) (xs : List τ) :
    List τ := places.foldl (fun xs i => xs.modify i f) xs

theorem getElem?_modifyEach {f : τ → τ} (hf : ∀ x, f (f x) = f x) (places : List Nat)
    (xs : List τ) (i : Nat) :
    (modifyEach f places xs)[i]? = xs[i]?.map fun x => if i ∈ places then f x else x := by
  induction places generalizing xs with
  | nil => simp [modifyEach]
  | cons j places ih =>
    change (modifyEach f places (xs.modify j f))[i]? = _
    rw [ih, List.getElem?_modify]
    cases xs[i]? with
    | none => rfl
    | some x =>
      by_cases hj : j = i
      · subst hj
        simp [hf]
      · simp [hj, Ne.symm hj]

end EntryCache

import EntryCache.FiniteMap
import Mathlib.Logic.Function.Basic

namespace EntryCache.FiniteMap

variable {κ α : Type} [DecidableEq κ]

theorem get?_insert_eq_update (m : FiniteMap κ α) (k : κ) (a : α) :
    (m.insert k a).get? = Function.update m.get? k (some a) := by
  funext j
  rw [get?_insert, Function.update_apply]
  simp only [eq_comm]

theorem get?_erase_eq_update (m : FiniteMap κ α) (k : κ) :
    (m.erase k).get? = Function.update m.get? k none := by
  funext j
  rw [get?_erase, Function.update_apply]
  simp only [eq_comm]

theorem put_eq_self {k : κ} {a : α} {m : List (κ × α)} (h : find k m = some a) : put k a m = m := by
  induction m with
  | nil => cases h
  | cons p m ih =>
    obtain ⟨i, b⟩ := p
    rw [find] at h
    rw [put]
    split at h
    · next hik =>
      obtain rfl := Option.some.inj h
      rw [if_pos hik, hik]
    · next hik => rw [if_neg hik, ih h]

theorem insert_eq_self {m : FiniteMap κ α} {k : κ} {a : α} (h : m.get? k = some a) :
    m.insert k a = m := by
  simp only [insert, put_eq_self h]

theorem length_put (k : κ) (a : α) (m : List (κ × α)) :
    (put k a m).length = m.length + if (find k m).isSome then 0 else 1 := by
  induction m with
  | nil => rfl
  | cons p m ih =>
    obtain ⟨i, b⟩ := p
    by_cases hik : i = k
    · simp [put, find, hik]
    · simp [put, find, hik, ih]
      omega

theorem size_insert (m : FiniteMap κ α) (k : κ) (a : α) :
    (m.insert k a).size = m.size + if (m.get? k).isSome then 0 else 1 := length_put k a m.toList

theorem keys_insert_of_new {m : FiniteMap κ α} {k : κ} (h : k ∉ m.keys) (a : α) :
    (m.insert k a).keys = m.keys ++ [k] := by
  obtain ⟨ps, hnodup⟩ := m
  change k ∉ ps.map Prod.fst at h
  change (put k a ps).map Prod.fst = ps.map Prod.fst ++ [k]
  clear hnodup
  induction ps with
  | nil => rfl
  | cons p ps ih =>
    rw [List.map_cons, List.mem_cons, not_or] at h
    rw [put, if_neg (Ne.symm h.1), List.map_cons, ih h.2]
    rfl

theorem length_drop {k : κ} {a : α} {m : List (κ × α)} (h : find k m = some a) :
    (drop k m).length + 1 = m.length := by
  induction m with
  | nil => cases h
  | cons p m ih =>
    obtain ⟨i, b⟩ := p
    by_cases hik : i = k
    · simp [drop, hik]
    · rw [find, if_neg hik] at h
      simp [drop, hik, ih h]

theorem size_erase {m : FiniteMap κ α} {k : κ} {a : α} (h : m.get? k = some a) :
    (m.erase k).size + 1 = m.size :=
  length_drop h

theorem find_eq_some {k : κ} {a : α} {m : List (κ × α)} (h : (m.map Prod.fst).Nodup) :
    find k m = some a ↔ (k, a) ∈ m := by
  induction m with
  | nil => simp [find]
  | cons p m ih =>
    obtain ⟨i, b⟩ := p
    rw [List.map_cons, List.nodup_cons] at h
    by_cases hik : i = k
    · subst hik
      have hm : (i, a) ∉ m := fun hm => h.1 (List.mem_map.2 ⟨_, hm, rfl⟩)
      simp [find, hm, eq_comm]
    · simp [find, hik, ih h.2, Ne.symm hik]

theorem mem_toList_iff {m : FiniteMap κ α} {k : κ} {a : α} :
    (k, a) ∈ m.toList ↔ m.get? k = some a :=
  (find_eq_some m.nodup).symm

theorem find_filter (f : κ → Bool) (k : κ) (m : List (κ × α)) :
    find k (m.filter fun p => f p.1) = if f k then find k m else none := by
  induction m with
  | nil => simp [find]
  | cons p m ih =>
    obtain ⟨i, b⟩ := p
    by_cases hi : f i = true
    · by_cases hik : i = k
      · subst hik
        simp [find, hi]
      · simp [find, hi, hik, ih]
    · by_cases hik : i = k
      · subst hik
        simp [hi, ih]
      · simp [find, hi, hik, ih]

theorem get?_filter (m : FiniteMap κ α) (f : κ → Bool) (k : κ) :
    (m.filter f).get? k = if f k then m.get? k else none := find_filter f k m.toList

theorem get?_eraseEach (ks : List κ) (m : FiniteMap κ α) (j : κ) :
    (ks.foldl erase m).get? j = if j ∈ ks then none else m.get? j := by
  induction ks generalizing m with
  | nil => rfl
  | cons k ks ih =>
    rw [List.foldl_cons, ih, get?_erase]
    by_cases hk : k = j
    · simp [hk]
    · simp [hk, Ne.symm hk]

theorem perm_cons_drop [BEq κ] [LawfulBEq κ] {k : κ} {a : α} {m : List (κ × α)}
    (h : m.lookup k = some a) : m.Perm ((k, a) :: drop k m) := by
  induction m with
  | nil => cases h
  | cons p m ih =>
    obtain ⟨i, b⟩ := p
    by_cases hik : i = k
    · subst hik
      obtain rfl : b = a := by simpa using h
      simp [drop]
    · have hlookup : m.lookup k = some a := by
        rwa [List.lookup_cons, beq_false_of_ne (Ne.symm hik)] at h
      simp only [drop, if_neg hik]
      exact ((ih hlookup).cons _).trans (.swap _ _ _)

omit [DecidableEq κ] in
theorem lookup_append_cons [BEq κ] [LawfulBEq κ] {k : κ} {before : List (κ × α)}
    (h : k ∉ before.map Prod.fst) (a : α)
    (after : List (κ × α)) : (before ++ (k, a) :: after).lookup k = some a := by
  induction before with
  | nil => simp
  | cons p before ih =>
    rw [List.map_cons, List.mem_cons, not_or] at h
    rw [List.cons_append, List.lookup_cons, beq_false_of_ne h.1]
    exact ih h.2

theorem drop_append_cons {k : κ} {before : List (κ × α)} (h : k ∉ before.map Prod.fst) (a : α)
    (after : List (κ × α)) : drop k (before ++ (k, a) :: after) = before ++ after := by
  induction before with
  | nil => simp [drop]
  | cons p before ih =>
    rw [List.map_cons, List.mem_cons, not_or] at h
    rw [List.cons_append, drop, if_neg (Ne.symm h.1), ih h.2]
    rfl

theorem drop_sublist (k : κ) (m : List (κ × α)) : (drop k m).Sublist m := by
  induction m with
  | nil => exact .slnil
  | cons p m ih =>
    obtain ⟨i, b⟩ := p
    rw [drop]
    split
    · exact List.sublist_cons_self _ _
    · exact ih.cons_cons _

theorem mem_drop_of_ne {k i : κ} {a : α} {m : List (κ × α)} (hne : i ≠ k) (h : (i, a) ∈ m) :
    (i, a) ∈ drop k m := by
  induction m with
  | nil => cases h
  | cons p m ih =>
    obtain ⟨j, b⟩ := p
    rw [drop]
    split
    · next hjk =>
      rcases List.mem_cons.1 h with heq | h
      · exact absurd ((Prod.mk.inj heq).1.trans hjk) hne
      · exact h
    · rcases List.mem_cons.1 h with heq | h
      · exact heq ▸ List.mem_cons_self
      · exact List.mem_cons_of_mem _ (ih h)

end EntryCache.FiniteMap

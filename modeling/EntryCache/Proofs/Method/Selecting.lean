import EntryCache.Method
import Mathlib.Logic.Relation

namespace EntryCache

open Relation

abbrev Marked (arguments : List Argument) : Prop := ∃ a ∈ arguments, a.role = .key

def selected (arguments : List Argument) : List Argument :=
  if Marked arguments then arguments.filter (·.role = .key) else arguments.filter (·.role ≠ .value)

def selectedValues (arguments : List Argument) : List KeyPart := (selected arguments).map (·.value)

/-- What a key does not see. -/
inductive Edit : List Argument → List Argument → Prop
  | value (before after : List Argument) {a : Argument} (ha : a.role = .value) :
    Edit (before ++ a :: after) (before ++ after)
  | plain (before after : List Argument) {a : Argument} (ha : a.role = .plain)
    (hmarked : Marked (before ++ after)) : Edit (before ++ a :: after) (before ++ after)
  | label (before after : List Argument) {a b : Argument} (hvalue : a.value = b.value)
    (hrole : a.role = b.role) : Edit (before ++ a :: after) (before ++ b :: after)

variable {p q : List Argument}

theorem Invocation.keyArguments_eq (i : Invocation) : i.keyArguments = selected i.arguments := by
  have hmarked : Marked i.arguments ↔ i.arguments.filter (·.role = .key) ≠ [] := by
    simp [Marked, List.filter_eq_nil_iff]
  rw [selected, keyArguments]
  cases hkeys : i.arguments.filter (·.role = .key) with
  | nil => rw [if_neg (by rw [hmarked, hkeys]; exact fun h => h rfl)]
  | cons a marked => rw [if_pos (by rw [hmarked, hkeys]; exact List.cons_ne_nil _ _)]

theorem marked_insert {before after : List Argument} {a : Argument} :
    Marked (before ++ a :: after) ↔ a.role = .key ∨ Marked (before ++ after) := by
  simp only [Marked, List.mem_append, List.mem_cons, or_and_right, exists_or, exists_eq_left]
  exact or_left_comm

namespace Edit

theorem marked_iff (h : Edit p q) : Marked p ↔ Marked q := by
  cases h with
  | value before after ha => rw [marked_insert, ha, or_iff_right nofun]
  | plain before after ha hmarked => rw [marked_insert, ha, or_iff_right nofun]
  | label before after hvalue hrole => rw [marked_insert, marked_insert, hrole]

theorem selectedValues_eq (h : Edit p q) : selectedValues p = selectedValues q := by
  rw [selectedValues, selectedValues, selected, selected]
  simp only [h.marked_iff]
  cases h with
  | value before after ha => simp [ha]
  | plain before after ha hmarked => simp [ha, hmarked]
  | label before after hvalue hrole =>
    simp only [List.filter_append, List.filter_cons, hrole]
    split <;> split <;> simp [hvalue]

theorem eqvGen_marked_iff (h : EqvGen Edit p q) : Marked p ↔ Marked q := by
  induction h with
  | rel _ _ h => exact h.marked_iff
  | refl _ => exact Iff.rfl
  | symm _ _ _ ih => exact ih.symm
  | trans _ _ _ _ _ ih ih' => exact ih.trans ih'

theorem eqvGen_selectedValues_eq (h : EqvGen Edit p q) : selectedValues p = selectedValues q := by
  induction h with
  | rel _ _ h => exact h.selectedValues_eq
  | refl _ => rfl
  | symm _ _ _ ih => exact ih.symm
  | trans _ _ _ _ _ ih ih' => exact ih.trans ih'

theorem eqvGen_filter {keep : Argument → Bool} {I : List Argument → Prop}
    (hdrop : ∀ before a after, keep a = false → I (before ++ a :: after) →
      Edit (before ++ a :: after) (before ++ after) ∧ I (before ++ after))
    (before p : List Argument) (hp : I (before ++ p)) :
    EqvGen Edit (before ++ p) (before ++ p.filter keep) := by
  induction p generalizing before with
  | nil => exact .refl _
  | cons a p ih =>
    cases ha : keep a with
    | true =>
      rw [List.filter_cons_of_pos ha, List.append_cons before a p,
        List.append_cons before a (p.filter keep)]
      exact ih (before ++ [a]) (List.append_cons before a p ▸ hp)
    | false =>
      obtain ⟨hedit, hp'⟩ := hdrop before a p ha hp
      rw [List.filter_cons_of_neg (by rw [ha]; exact Bool.false_ne_true)]
      exact .trans _ _ _ (.rel _ _ hedit) (ih before hp')

theorem eqvGen_selected (p : List Argument) : EqvGen Edit p (selected p) := by
  rw [selected]
  by_cases hp : Marked p
  · rw [if_pos hp]
    refine eqvGen_filter (I := Marked) (fun before a after ha hmarked => ?_) [] p hp
    have ha : a.role ≠ .key := of_decide_eq_false ha
    have hmarked : Marked (before ++ after) := (marked_insert.1 hmarked).resolve_left ha
    refine ⟨?_, hmarked⟩
    cases hrole : a.role with
    | plain => exact .plain before after hrole hmarked
    | key => exact absurd hrole ha
    | value => exact .value before after hrole
  · rw [if_neg hp]
    refine eqvGen_filter (I := fun _ => True) (fun before a after ha _ => ⟨?_, trivial⟩)
      [] p trivial
    exact .value before after (Decidable.not_not.1 (of_decide_eq_false ha))

theorem eqvGen_of_values {r : Role} (before : List Argument) (hp : ∀ a ∈ p, a.role = r)
    (hq : ∀ b ∈ q, b.role = r)
    (h : p.map (·.value) = q.map (·.value)) : EqvGen Edit (before ++ p) (before ++ q) := by
  induction p generalizing before q with
  | nil =>
    obtain rfl := List.map_eq_nil_iff.1 h.symm
    exact .refl _
  | cons a p ih =>
    obtain ⟨b, q, rfl, hb, hvalues⟩ := List.map_eq_cons_iff.1 h.symm
    rw [List.forall_mem_cons] at hp hq
    have hrest := ih (before ++ [b]) hp.2 hq.2 hvalues.symm
    rw [← List.append_cons, ← List.append_cons] at hrest
    exact .trans _ _ _ (.rel _ _ (.label before p hb.symm (hp.1.trans hq.1.symm))) hrest

theorem role_of_mem_selected {a : Argument} (h : a ∈ selected p) :
    a.role = if Marked p then .key else .plain := by
  rw [selected] at h
  by_cases hp : Marked p
  · rw [if_pos hp] at h ⊢
    exact of_decide_eq_true (List.mem_filter.1 h).2
  · rw [if_neg hp] at h ⊢
    obtain ⟨ha, hvalue⟩ := List.mem_filter.1 h
    have hvalue : a.role ≠ .value := of_decide_eq_true hvalue
    cases hrole : a.role with
    | plain => rfl
    | key => exact absurd ⟨a, ha, hrole⟩ hp
    | value => exact absurd hrole hvalue

theorem eqvGen_iff : EqvGen Edit p q ↔ selectedValues p = selectedValues q ∧
    (Marked p ↔ Marked q) := by
  refine ⟨fun h => ⟨eqvGen_selectedValues_eq h, eqvGen_marked_iff h⟩, fun ⟨hvalues, hmarked⟩ => ?_⟩
  have hroles : ∀ b ∈ selected q, b.role = if Marked p then .key else .plain := fun b hb => by
    rw [role_of_mem_selected hb]
    simp only [hmarked]
  have hselected := eqvGen_of_values [] (fun _ => role_of_mem_selected) hroles hvalues
  exact (eqvGen_selected p).trans _ _ _ (hselected.trans _ _ _ (eqvGen_selected q).symm)

end Edit

def KeyPart.nested : List (List KeyPart × List KeyPart) → KeyPart → KeyPart
  | [], x => x
  | (before, after) :: around, x => .array (before ++ nested around x :: after)

theorem KeyPart.nested_inj {around : List (List KeyPart × List KeyPart)} {x y : KeyPart} :
    nested around x = nested around y ↔ x = y := by
  induction around with
  | nil => rfl
  | cons a around ih => simp [nested, ih]

namespace KeyGenerator

/-- Whatever is called with them and however their keys are hashed: two calls have the same key if,
and only if, their selected values are the same, at any depth; so no edit of other kinds of
arguments is seen, and but for the marks these are all edits that are not. Keys that are the same
feed the same to a hasher. -/
theorem standard_selects (h : Hasher) (i j : Invocation) :
    ∃ a b, standard i = .ok a ∧ standard j = .ok b ∧
      (a.same h b = true ↔ selectedValues i.arguments = selectedValues j.arguments) ∧
      (EqvGen Edit i.arguments j.arguments ↔ a.same h b = true ∧
        (Marked i.arguments ↔ Marked j.arguments)) ∧
      (∀ before after around x y, selectedValues i.arguments = before ++
        KeyPart.nested around x :: after →
        selectedValues j.arguments = before ++ KeyPart.nested around y :: after →
        (a.same h b = true ↔ x = y)) ∧
      (a.same h b = true → a.feed h = b.feed h) := by
  have hsame : ∀ i : Invocation, standard i = .ok ⟨selectedValues i.arguments⟩ := fun i => by
    rw [standard, i.keyArguments_eq, selectedValues]
  refine ⟨_, _, hsame i, hsame j, ?_⟩
  simp only [Key.same_iff, Key.mk.injEq]
  refine ⟨trivial, Edit.eqvGen_iff, fun before after around x y hi hj => ?_,
    fun hkeys => by rw [hkeys]⟩
  rw [hi, hj, List.append_cancel_left_eq, List.cons.injEq, KeyPart.nested_inj]
  exact and_iff_left rfl

theorem standard_selects_nested :
    let around : List (List KeyPart × List KeyPart) := [([.int 1], []), ([.float 0], [])]
    let i : Invocation := ⟨⟨"first", "c", .put default⟩,
      [⟨0, "plain", .text "p", .plain⟩, ⟨1, "marked", .nested around (.int 2), .key⟩]⟩
    let j : Invocation := ⟨⟨"second", "d", .remove default⟩,
      [⟨0, "also", .nested around (.int 3), .key⟩, ⟨1, "given", .null, .value⟩]⟩
    ∃ a b, KeyGenerator.standard i = .ok a ∧ KeyGenerator.standard j = .ok b ∧
      ¬a.same (fun _ => 0) b = true := by
  intro around i j
  obtain ⟨a, b, ha, hb, -, -, hinside, -⟩ := standard_selects (fun _ => 0) i j
  refine ⟨a, b, ha, hb, ?_⟩
  rw [hinside [] [] around (.int 2) (.int 3) (by decide) (by decide)]
  decide

end KeyGenerator

end EntryCache

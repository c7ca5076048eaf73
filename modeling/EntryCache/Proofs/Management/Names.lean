import EntryCache.Management
import Mathlib.Data.List.Forall2

namespace EntryCache

def separators : List Char := [',', ':', '=', '\n']

/-- Two characters that sanitizing does not tell apart. -/
def Blurred (c d : Char) : Prop := c = d ∨ (c ∈ '.' :: separators ∧ d ∈ '.' :: separators)

def nameParts (kind : ManagementKind) (uri name : String) : List String :=
  ["cache:type=Cache" ++ kind.name, "CacheManager=" ++ sanitize uri, "Cache=" ++ sanitize name]

variable {c d : Char}

theorem sanitizeChar_of_mem (h : c ∈ '.' :: separators) : sanitizeChar c = '.' := by
  simp only [separators, List.mem_cons, List.not_mem_nil, or_false] at h
  obtain rfl | rfl | rfl | rfl | rfl := h <;> rfl

theorem sanitizeChar_of_not_mem (h : c ∉ separators) : sanitizeChar c = c := by
  apply if_neg
  simpa [separators] using h

theorem sanitizeChar_not_mem (c : Char) : sanitizeChar c ∉ separators := by
  by_cases h : c ∈ separators
  · rw [sanitizeChar_of_mem (List.mem_cons_of_mem _ h)]
    decide
  · rwa [sanitizeChar_of_not_mem h]

theorem sanitizeChar_idem (c : Char) : sanitizeChar (sanitizeChar c) = sanitizeChar c :=
  sanitizeChar_of_not_mem (sanitizeChar_not_mem c)

theorem sanitizeChar_eq_point_iff : sanitizeChar c = '.' ↔ c ∈ '.' :: separators := by
  constructor
  · intro h
    by_cases hc : c ∈ separators
    · exact List.mem_cons_of_mem _ hc
    · rw [sanitizeChar_of_not_mem hc] at h
      exact h ▸ List.mem_cons_self
  · exact sanitizeChar_of_mem

theorem sanitizeChar_eq_iff : sanitizeChar c = sanitizeChar d ↔ Blurred c d := by
  constructor
  · intro h
    by_cases hc : c ∈ '.' :: separators
    · rw [sanitizeChar_of_mem hc] at h
      exact .inr ⟨hc, sanitizeChar_eq_point_iff.1 h.symm⟩
    · by_cases hd : d ∈ '.' :: separators
      · rw [sanitizeChar_of_mem hd] at h
        exact .inr ⟨sanitizeChar_eq_point_iff.1 h, hd⟩
      · rw [sanitizeChar_of_not_mem (fun hs => hc (List.mem_cons_of_mem _ hs)),
          sanitizeChar_of_not_mem (fun hs => hd (List.mem_cons_of_mem _ hs))] at h
        exact .inl h
  · rintro (rfl | ⟨hc, hd⟩)
    · rfl
    · rw [sanitizeChar_of_mem hc, sanitizeChar_of_mem hd]

@[simp] theorem toList_sanitize (s : String) :
    (sanitize s).toList = s.toList.map sanitizeChar := String.toList_map

theorem length_sanitize (s : String) : (sanitize s).length = s.length := String.length_map

theorem sanitize_idem (s : String) : sanitize (sanitize s) = sanitize s := by
  simp [← String.toList_inj, Function.comp_def, sanitizeChar_idem]

theorem not_mem_sanitize (h : c ∈ separators) (s : String) : c ∉ (sanitize s).toList := by
  rw [toList_sanitize, List.mem_map]
  rintro ⟨d, -, rfl⟩
  exact sanitizeChar_not_mem d h

theorem sanitize_eq_iff (s t : String) :
    sanitize s = sanitize t ↔ List.Forall₂ Blurred s.toList t.toList := by
  rw [← String.toList_inj, toList_sanitize, toList_sanitize, ← List.forall₂_eq_eq_eq,
    List.forall₂_map_left_iff,
    List.forall₂_map_right_iff]
  simp only [sanitizeChar_eq_iff]

theorem intercalate_parts (a b c : String) :
    (String.singleton ',').intercalate [a, "CacheManager=" ++ b, "Cache=" ++ c] =
      a ++ ",CacheManager=" ++ b ++ ",Cache=" ++ c := by
  have hmanager : ",CacheManager=" = String.singleton ',' ++ "CacheManager=" := by decide
  have hcache : ",Cache=" = String.singleton ',' ++ "Cache=" := by decide
  rw [String.intercalate_cons_cons, String.intercalate_cons_cons, String.intercalate_singleton,
    hmanager, hcache]
  simp only [String.append_assoc]

theorem objectName_eq (kind : ManagementKind) (uri name : String) :
    objectName kind uri name = (String.singleton ',').intercalate (nameParts kind uri name) :=
  (intercalate_parts ..).symm

theorem not_mem_nameParts (kind : ManagementKind) (uri name : String) :
    ∀ part ∈ nameParts kind uri name, ',' ∉ part.toList := by
  have hkind : ',' ∉ kind.name.toList := by
    cases kind <;> decide
  have hsanitized : ∀ s, ',' ∉ (sanitize s).toList := not_mem_sanitize (by decide)
  intro part hpart
  simp only [nameParts, List.mem_cons, List.not_mem_nil, or_false] at hpart
  obtain rfl | rfl | rfl := hpart
  · rw [String.toList_append, List.mem_append, not_or]
    exact ⟨by decide, hkind⟩
  · rw [String.toList_append, List.mem_append, not_or]
    exact ⟨by decide, hsanitized uri⟩
  · rw [String.toList_append, List.mem_append, not_or]
    exact ⟨by decide, hsanitized name⟩

theorem split_objectName (kind : ManagementKind) (uri name : String) :
    ((objectName kind uri name).split ',').toList.map (·.copy) = nameParts kind uri name := by
  rw [objectName_eq, String.toList_split_intercalate (not_mem_nameParts kind uri name)]
  rfl

theorem nameParts_inj {kind kind' : ManagementKind} {uri uri' name name' : String} :
    nameParts kind uri name = nameParts kind' uri' name' ↔
      kind = kind' ∧ sanitize uri = sanitize uri' ∧ sanitize name = sanitize name' := by
  have hkind : kind.name = kind'.name ↔ kind = kind' := by
    cases kind <;> cases kind' <;> decide
  simp only [nameParts, List.cons.injEq, String.append_right_inj, hkind, and_true]

/-- A registered name says which view it is of, and of which manager and cache up to sanitizing,
whatever the texts are that it is made of: it is read by splitting it. -/
theorem objectName_unambiguous :
    (∀ kind uri name kind' uri' name', objectName kind uri name = objectName kind' uri' name' ↔
      kind = kind' ∧ sanitize uri = sanitize uri' ∧ sanitize name = sanitize name') ∧
    (∀ kind uri name, ((objectName kind uri name).split ',').toList.map (·.copy) =
      ["cache:type=Cache" ++ kind.name, "CacheManager=" ++ sanitize uri,
        "Cache=" ++ sanitize name]) ∧
    (∀ s, (sanitize s).length = s.length ∧ sanitize (sanitize s) = sanitize s) ∧
    ∀ s t, sanitize s = sanitize t ↔ List.Forall₂ Blurred s.toList t.toList := by
  refine ⟨?_, split_objectName, fun s => ⟨length_sanitize s, sanitize_idem s⟩, sanitize_eq_iff⟩
  intro kind uri name kind' uri' name'
  rw [← nameParts_inj]
  constructor
  · intro h
    rw [← split_objectName kind uri name, h, split_objectName]
  · intro h
    rw [objectName_eq, h, ← objectName_eq]

example : objectName .statistics "mem://a,b" "users:v=1" =
    "cache:type=CacheStatistics,CacheManager=mem.//a.b,Cache=users.v.1" := by decide +kernel

end EntryCache

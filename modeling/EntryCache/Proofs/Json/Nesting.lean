import EntryCache.Proofs.Json.RoundTrip

namespace EntryCache.Json

structure Scan : Type where
  quoted : Bool
  escaped : Bool
  level : Nat
  deepest : Nat

def Scan.step (s : Scan) (c : Char) : Scan :=
  if s.quoted then
    if s.escaped then { s with escaped := false }
    else if c = '\\' then { s with escaped := true }
    else if c = '"' then { s with quoted := false }
    else s
  else if c = '"' then { s with quoted := true }
  else if c = '[' ∨ c = '\x7b' then
    { s with level := s.level + 1, deepest := max s.deepest (s.level + 1) }
  else if c = ']' ∨ c = '\x7d' then { s with level := s.level - 1 }
  else s

def nesting (text : String) : Nat := (text.toList.foldl Scan.step ⟨false, false, 0, 0⟩).deepest

def Nests (cs : List Char) (n : Nat) : Prop :=
  ∀ level deepest, level ≤ deepest →
    cs.foldl Scan.step ⟨false, false, level, deepest⟩ =
      ⟨false, false, level, max deepest (level + n)⟩

theorem Nests.nesting {cs : List Char} {n : Nat} (h : Nests cs n) :
    nesting (String.ofList cs) = n := by
  rw [Json.nesting, String.toList_ofList, h 0 0 (Nat.le_refl 0)]
  simp

namespace Nests

variable {cs ds : List Char} {m n : Nat}

theorem nil : Nests [] 0 := by
  intro level deepest hle
  simp [Nat.max_eq_left hle]

theorem append (hcs : Nests cs m) (hds : Nests ds n) : Nests (cs ++ ds) (max m n) := by
  intro level deepest hle
  rw [List.foldl_append, hcs level deepest hle, hds level _ (by omega)]
  congr 1
  omega

theorem plain {c : Char} (hc : c ∉ ['"', '[', ']', '\x7b', '\x7d']) : Nests [c] 0 := by
  intro level deepest hle
  simp only [List.mem_cons, List.not_mem_nil, or_false, not_or] at hc
  simp [Scan.step, hc, Nat.max_eq_left hle]

theorem of_plain (hcs : ∀ c ∈ cs, c ∉ ['"', '[', ']', '\x7b', '\x7d']) : Nests cs 0 := by
  induction cs with
  | nil => exact nil
  | cons c cs ih =>
    obtain ⟨hc, hcs⟩ := List.forall_mem_cons.1 hcs
    exact (plain hc).append (ih hcs)

theorem bracketed {bracket close : Char}
    (hb : bracket = '[' ∧ close = ']' ∨ bracket = '\x7b' ∧ close = '\x7d')
    (h : Nests cs n) : Nests (bracket :: cs ++ [close]) (n + 1) := by
  intro level deepest hle
  have hopen : Scan.step ⟨false, false, level, deepest⟩ bracket =
      ⟨false, false, level + 1, max deepest (level + 1)⟩ := by
    rcases hb with ⟨rfl, rfl⟩ | ⟨rfl, rfl⟩ <;> simp [Scan.step]
  have hclose : ∀ deepest, Scan.step ⟨false, false, level + 1, deepest⟩ close =
      ⟨false, false, level, deepest⟩ := by
    rcases hb with ⟨rfl, rfl⟩ | ⟨rfl, rfl⟩ <;> simp [Scan.step]
  rw [List.cons_append, List.foldl_cons, hopen, List.foldl_append, h (level + 1) _ (by omega),
    List.foldl_cons, hclose,
    List.foldl_nil]
  congr 1
  omega

theorem foldl_escapeChar (c : Char) (level deepest : Nat) :
    (escapeChar c).foldl Scan.step ⟨true, false, level, deepest⟩ =
      ⟨true, false, level, deepest⟩ := by
  unfold escapeChar
  split
  case h_8 hq hb _ _ _ _ _ =>
    split
    · -- The digits behind the escape are neither quotes nor backslashes.
      have hdigit : ∀ k < 16, Nat.digitChar k ≠ '"' ∧ Nat.digitChar k ≠ '\\' := by decide
      have hhigh := hdigit (c.toNat / 16) (by omega)
      have hlow := hdigit (c.toNat % 16) (by omega)
      simp [Scan.step, hhigh, hlow]
    · have hplain : c ≠ '"' ∧ c ≠ '\\' := ⟨hq, hb⟩
      simp [Scan.step, hplain]
  all_goals rfl

theorem writeChars (s : List Char) : Nests (Json.writeChars s) 0 := by
  intro level deepest hle
  have hquoted : (s.flatMap escapeChar).foldl Scan.step ⟨true, false, level, deepest⟩ =
      ⟨true, false, level, deepest⟩ := by
    induction s with
    | nil => rfl
    | cons c s ih => rw [List.flatMap_cons, List.foldl_append, foldl_escapeChar, ih]
  have hopen : Scan.step ⟨false, false, level, deepest⟩ '"' = ⟨true, false, level, deepest⟩ := by
    simp [Scan.step]
  have hclose : Scan.step ⟨true, false, level, deepest⟩ '"' = ⟨false, false, level, deepest⟩ := by
    simp [Scan.step]
  rw [Json.writeChars, List.cons_append, List.foldl_cons, hopen, List.foldl_append, hquoted,
    List.foldl_cons, hclose]
  simp [Nat.max_eq_left hle]

theorem toDigits (n : Nat) : Nests (Nat.toDigits 10 n) 0 := by
  refine of_plain fun c hc hmark => ?_
  have hdigit : c.isDigit = true := Nat.isDigit_of_mem_toDigits (by decide) (by decide) hc
  simp only [List.mem_cons, List.not_mem_nil, or_false] at hmark
  rcases hmark with rfl | rfl | rfl | rfl | rfl <;> cases hdigit

theorem writeInt (i : Int) : Nests (Json.writeInt i) 0 := by
  cases i with
  | ofNat n => exact toDigits n
  | negSucc n => exact (plain (by decide)).append (toDigits (n + 1))

theorem intercalate {β : Type} {f : β → List Char} {g : β → Nat} {xs : List β}
    (h : ∀ x ∈ xs, Nests (f x) (g x)) :
    Nests ([','].intercalate (xs.map f)) ((xs.map g).foldr max 0) := by
  induction xs with
  | nil => exact nil
  | cons x xs ih =>
    obtain ⟨hx, hxs⟩ := List.forall_mem_cons.1 h
    cases xs with
    | nil => simpa using hx
    | cons y ys =>
      have hcomma : Nests [','] 0 := plain (by decide)
      have hall := (hx.append hcomma).append (ih hxs)
      rw [Nat.max_zero] at hall
      rw [List.map_cons, List.map_cons, List.intercalate_cons_cons]
      exact hall

theorem array {β : Type} {f : β → List Char} {g : β → Nat} {xs : List β}
    (h : ∀ x ∈ xs, Nests (f x) (g x)) :
    Nests (writeArray (xs.map f)) ((xs.map g).foldr max 0 + 1) :=
      (intercalate h).bracketed (.inl ⟨rfl, rfl⟩)

theorem array_flat {β : Type} {f : β → List Char} {xs : List β} (h : ∀ x ∈ xs, Nests (f x) 0) :
    Nests (writeArray (xs.map f)) 1 := by
  have hflat : (xs.map fun _ => 0).foldr max 0 = 0 := by
    clear h
    induction xs with
    | nil => rfl
    | cons x xs ih => rw [List.map_cons, List.foldr_cons, ih, Nat.max_self]
  have harray := array h
  rwa [hflat] at harray

theorem object_single (name : String) (h : Nests cs n) :
    Nests (writeObject [(name, cs)]) (n + 1) := by
  have hcolon : Nests [':'] 0 := plain (by decide)
  have hmember := (writeChars name.toList).append (hcolon.append h)
  rw [Nat.zero_max, Nat.zero_max] at hmember
  have htext : writeObject [(name, cs)] =
      '\x7b' :: (Json.writeChars name.toList ++ ([':'] ++ cs)) ++ ['\x7d'] := by
    simp [writeObject, writeList]
  rw [htext]
  exact hmember.bracketed (.inr ⟨rfl, rfl⟩)

end Nests

end EntryCache.Json

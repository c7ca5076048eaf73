import EntryCache.Key.Form
import EntryCache.Proofs.Json.Nesting
import EntryCache.Proofs.Json.Room

namespace EntryCache

namespace KeyPart

mutual

def depth : KeyPart → Nat
  | .null => 0
  | .bytes _ => 2
  | .array xs => depthList xs + 2
  | _ => 1

def depthList : List KeyPart → Nat
  | [] => 0
  | x :: xs => max x.depth (depthList xs)

end

theorem depthList_eq (xs : List KeyPart) : depthList xs = (xs.map depth).foldr max 0 := by
  induction xs with
  | nil => rfl
  | cons x xs ih => simp [depthList, ih]

theorem jsonList_eq (xs : List KeyPart) : jsonList xs = xs.map json := by
  induction xs with
  | nil => rfl
  | cons x xs ih => simp [jsonList, ih]

@[elab_as_elim]
theorem induction {motive : KeyPart → Prop} (p : KeyPart) (null : motive .null)
    (bool : ∀ b, motive (.bool b)) (int : ∀ i, motive (.int i)) (uint : ∀ n, motive (.uint n))
    (float : ∀ bits, motive (.float bits)) (text : ∀ s, motive (.text s))
    (bytes : ∀ bs, motive (.bytes bs))
    (array : ∀ xs, (∀ x ∈ xs, motive x) → motive (.array xs)) : motive p :=
  @KeyPart.rec motive (fun xs => ∀ x ∈ xs, motive x) null bool int uint float text bytes array
    (List.forall_mem_nil motive) (fun _ _ hx hxs => List.forall_mem_cons.2 ⟨hx, hxs⟩) p

theorem nests_json (p : KeyPart) : Json.Nests p.json p.depth := by
  induction p using KeyPart.induction with
  | null => exact .writeChars _
  | bool b => exact .object_single "Bool" (.of_plain (by cases b <;> simp [Json.Form.write]))
  | int i => exact .object_single "Int" (.writeInt _)
  | uint n => exact .object_single "UInt" (.writeInt _)
  | float bits => exact .object_single "Float" (.writeInt _)
  | text s => exact .object_single "Str" (.writeChars _)
  | bytes bs => exact .object_single "Bytes" (.array_flat fun b _ => .writeInt b.toNat)
  | array xs ih =>
    have hparts := Json.Nests.array ih
    rw [← jsonList_eq, ← depthList_eq] at hparts
    exact .object_single "Array" hparts

def within (d : Nat) (p : KeyPart) : Option KeyPart := if p.depth ≤ d then some p else none

theorem mapM_within (d : Nat) (xs : List KeyPart) :
    xs.mapM (within d) = if depthList xs ≤ d then some xs else none := by
  induction xs with
  | nil => rfl
  | cons x xs ih =>
    rw [List.mapM_cons, ih, depthList, within]
    simp only [Nat.max_le]
    by_cases hx : x.depth ≤ d <;> by_cases hxs : depthList xs ≤ d <;> simp [hx, hxs]

theorem starts_json (p : KeyPart) : Json.Starts p.json := by
  cases p with
  | null => exact ⟨'"', _, rfl, rfl, by decide⟩
  | _ => exact ⟨'\x7b', _, rfl, rfl, by decide⟩

theorem gives_held {α : Type} [Json.Form α] {name : String} {f : α → KeyPart} {a : α} {n : Nat}
    (hname : ∀ array, content array name = some fun d => f <$> Json.Form.read d)
    (h : ∀ d, Json.Gives (Json.Form.read d) (Json.Form.write a) (if n ≤ d then some a else none))
    (d : Nat) :
    Json.Gives (readJson d) (Json.writeObject [(name, Json.Form.write a)])
      (if n + 1 ≤ d then some (f a) else none) := by
  have hheld : ∀ array d, Json.Gives (Json.choice ofName? (content array) (d + 1))
      (Json.writeObject [(name, Json.Form.write a)]) (if n + 1 ≤ d + 1 then some (f a) else none) :=
        fun array d => by
    have hread : Json.Gives (Json.choice ofName? (content array) (d + 1)) _ _ :=
      Json.gives_choice (hname array) ((h d).map f)
    by_cases hn : n ≤ d <;> simpa [hn] using hread
  match d with
  | 0 => exact Json.gives_choice_none _
  | 1 => exact hheld _ 0
  | d + 2 => exact hheld _ (d + 1)

theorem gives_scalar {α : Type} [Json.Form α] {name : String} {f : α → KeyPart} {a : α}
    (hname : ∀ array, content array name = some fun d => f <$> Json.Form.read d)
    (h : ∀ d, Json.RoundTrips d a) (d : Nat) :
    Json.Gives (readJson d) (Json.writeObject [(name, Json.Form.write a)])
      (if 1 ≤ d then some (f a) else none) :=
  gives_held (n := 0) hname (fun d => by simpa using (h d).gives) d

theorem gives_null (d : Nat) : Json.Gives (readJson d) (json .null) (some .null) := by
  have hnull : ofName? "Null" = some .null := rfl
  match d with
  | 0 => exact (Json.reads_choice hnull 0).gives
  | 1 => exact (Json.reads_choice hnull 1).gives
  | d + 2 => exact (Json.reads_choice hnull (d + 2)).gives

theorem gives_array {xs : List KeyPart}
    (h : ∀ x ∈ xs, ∀ d, Json.Gives (readJson d) x.json (within d x)) (d : Nat) :
    Json.Gives (readJson d) (json (.array xs)) (within d (.array xs)) := by
  match d with
  | 0 => exact Json.gives_choice_none _
  | 1 => exact Json.gives_choice rfl fun _ _ => rfl
  | d + 2 =>
    have hitems : Json.Gives (Json.readList (fun _ => readJson d) (d + 1))
      (Json.writeArray (jsonList xs))
        (xs.mapM (within d)) := by
      rw [jsonList_eq]
      exact Json.gives_readList (fun x hx => h x hx d) fun x _ => x.starts_json
    have hread : Json.Gives (readJson (d + 2)) (json (.array xs)) _ :=
      Json.gives_choice rfl (hitems.map KeyPart.array)
    rw [mapM_within] at hread
    by_cases hd : depthList xs ≤ d <;> simpa [within, depth, hd] using hread

theorem gives_json (p : KeyPart) (d : Nat) : Json.Gives (readJson d) p.json (within d p) := by
  induction p using KeyPart.induction generalizing d with
  | null => exact gives_null d
  | bool b => exact gives_scalar (fun _ => rfl) (Json.roundTrips_bool · b) d
  | int i => exact gives_scalar (fun _ => rfl) (Json.roundTrips_int64 · i) d
  | uint n => exact gives_scalar (fun _ => rfl) (Json.roundTrips_uint64 · n) d
  | float bits => exact gives_scalar (fun _ => rfl) (Json.roundTrips_uint64 · bits) d
  | text s => exact gives_scalar (fun _ => rfl) (Json.roundTrips_string · s) d
  | bytes bs => exact gives_held (fun _ => rfl) (Json.gives_bytes · bs) d
  | array xs ih => exact gives_array ih d

end KeyPart

namespace Key

theorem nesting_write (k : Key) : Json.nesting (Json.write k) = KeyPart.depthList k.parts + 1 := by
  have hparts := Json.Nests.array fun p (_ : p ∈ k.parts) => p.nests_json
  rw [← KeyPart.depthList_eq] at hparts
  exact hparts.nesting

/-- A key is read back from its text, whatever its parts are, if the brackets of the text nest at
most 127 levels deep, and from no deeper text. -/
theorem ofJson_write (wording : String → Json.Refusal → String) (k : Key) :
    ofJson wording (Json.write k) =
    if Json.nesting (Json.write k) ≤ 127 then .ok k
    else .error (.serialization (wording (Json.write k) .malformed)) := by
  have hparts : Json.Gives (Json.readList KeyPart.readJson 127)
    (Json.writeArray (k.parts.map KeyPart.json))
      (k.parts.mapM (KeyPart.within 126)) :=
    Json.gives_readList (fun p _ => p.gives_json 126) fun p _ => p.starts_json
  have hgives := hparts.map Key.mk
  rw [KeyPart.mapM_within] at hgives
  rw [ofJson, Json.read_write_of_gives hgives, nesting_write]
  by_cases hdepth : KeyPart.depthList k.parts ≤ 126
  · rw [if_pos hdepth, if_pos (by omega)]
    rfl
  · rw [if_neg hdepth, if_neg (by omega)]
    rfl

example : Json.nesting (Json.write (⟨[.array [.text "["]]⟩ : Key)) = 4 := by decide

end Key

end EntryCache

import EntryCache.Proofs.Json.RoundTrip

/-! Readers that check what they read. Such a reader stands beside one that takes everything as it
is written: what that one reads it reads as well if it passes the check, and refuses if it does
not. A value that is refused inside of a record is read on by the other reader, so what is wrong
with it has to stay wrong. -/

namespace EntryCache.Json

variable {α β γ σ τ : Type}

theorem exists_of_ok_eq_map {x : Except Error α} {f : α → β} {b : β} (h : .ok b = x.map f) :
    ∃ a, x = .ok a ∧ f a = b := by
  cases x with
  | error e => cases h
  | ok a =>
    cases h
    exact ⟨a, rfl, rfl⟩

theorem eq_error_of_error_eq_map {x : Except Error α} {f : α → β} {e : Error}
    (h : .error e = x.map f) : x = .error e := by
  cases x with
  | error e' =>
    cases h
    rfl
  | ok a => cases h

def verdict (x : Except Error α) (t : List Char) : Except Refusal (α × List Char) :=
  (x.mapError .refused).map (·, t)

structure Checks (raw : Reader β) (check : β → Except Error α → Prop) (r : Reader α) : Prop where
  read : ∀ ⦃s b t⦄, raw.run s = .ok (b, t) → ∃ x, check b x ∧ r.run s = verdict x t
  unread : ∀ ⦃s f⦄, raw.run s = .error f → ∃ g, r.run s = .error g

def Yields (r : Reader β) (P : β → Prop) : Prop := ∀ ⦃s b t⦄, r.run s = .ok (b, t) → P b

namespace Yields

variable {r : Reader β} {P : β → Prop}

theorem pure {b : β} (h : P b) : Yields (pure b) P := by
  rintro s b' t hrun
  cases hrun
  exact h

theorem malformed : Yields malformed P := nofun

theorem after {f : γ → Reader β} (r : Reader γ) (h : ∀ c, Yields (f c) P) : Yields (r >>= f) P := by
  intro s b t hrun
  rw [StateT.run_bind] at hrun
  cases hr : r.run s with
  | error f =>
    rw [hr] at hrun
    cases hrun
  | ok x =>
    rw [hr] at hrun
    exact h x.1 hrun

theorem bind {Q : γ → Prop} {f : γ → Reader β} {r : Reader γ} (h : Yields r Q)
    (hf : ∀ c, Q c → Yields (f c) P) : Yields (r >>= f) P := by
  intro s b t hrun
  rw [StateT.run_bind] at hrun
  cases hr : r.run s with
  | error f =>
    rw [hr] at hrun
    cases hrun
  | ok x =>
    rw [hr] at hrun
    exact hf x.1 (h hr) hrun

theorem membersFrom {name : Reader γ} {step : γ → β → Reader β}
    (h : ∀ c b, P b → Yields (step c b) P) {b : β}
    (hb : P b) (n : Nat) (first : Bool) : Yields (membersFrom name step n first b) P := by
  induction n generalizing b first with
  | zero => exact .malformed
  | succ n ih =>
    refine .after _ fun again => ?_
    cases again with
    | false => exact .pure hb
    | true => exact .after _ fun c => .after _ fun _ => (h c b hb).bind fun b hb => ih hb false

theorem itemsFrom {step : β → Reader β} (h : ∀ b, P b → Yields (step b) P) {b : β}
    (hb : P b) (n : Nat) (first : Bool) : Yields (itemsFrom step n first b) P := by
  induction n generalizing b first with
  | zero => exact .malformed
  | succ n ih =>
    refine .after _ fun again => ?_
    cases again with
    | false => exact .pure hb
    | true => exact (h b hb).bind fun b hb => ih hb false

end Yields

namespace Checks

variable {raw : Reader β} {check : β → Except Error α → Prop} {r : Reader α}

theorem pure {b : β} {a : α} (h : check b (.ok a)) : Checks (pure b) check (pure a) where
  read := by
    rintro s b' t hrun
    cases hrun
    exact ⟨.ok a, h, rfl⟩
  unread := nofun

theorem malformed : Checks malformed check malformed where
  read := nofun
  unread _ _ _ := ⟨_, rfl⟩

theorem imp {check' : β → Except Error α → Prop} (h : Checks raw check r)
    (hcheck : ∀ b x, check b x → check' b x) : Checks raw check' r where
  read s b t hrun := by
    obtain ⟨x, hx, hr⟩ := h.read hrun
    exact ⟨x, hcheck b x hx, hr⟩
  unread := h.unread

theorem self (r : Reader α) : Checks r (fun b x => x = .ok b) r where
  read _ b _ h := ⟨.ok b, rfl, h⟩
  unread _ f h := ⟨f, h⟩

theorem bind {check' : σ → Except Error τ → Prop} {g : β → Reader σ} {f : α → Reader τ}
    (h : Checks raw check r) (hok : ∀ b a, check b (.ok a) → Checks (g b) check' (f a))
    (herror : ∀ b e, check b (.error e) → Yields (g b) fun c => check' c (.error e)) :
    Checks (raw >>= g) check' (r >>= f) where
  read s c t hrun := by
    rw [StateT.run_bind] at hrun ⊢
    cases hraw : raw.run s with
    | error e =>
      rw [hraw] at hrun
      cases hrun
    | ok y =>
      rw [hraw] at hrun
      obtain ⟨x, hx, hr⟩ := h.read hraw
      rw [hr]
      cases x with
      | ok a => exact (hok y.1 a hx).read hrun
      | error e => exact ⟨.error e, herror y.1 e hx hrun, rfl⟩
  unread s e hrun := by
    rw [StateT.run_bind] at hrun ⊢
    cases hraw : raw.run s with
    | error e' =>
      obtain ⟨f, hf⟩ := h.unread hraw
      exact ⟨f, by rw [hf]; rfl⟩
    | ok y =>
      rw [hraw] at hrun
      obtain ⟨x, hx, hr⟩ := h.read hraw
      rw [hr]
      cases x with
      | ok a => exact (hok y.1 a hx).unread hrun
      | error e' => exact ⟨_, rfl⟩

theorem after {check' : σ → Except Error τ → Prop} {g : γ → Reader σ} {f : γ → Reader τ}
    (r : Reader γ) (h : ∀ c, Checks (g c) check' (f c)) : Checks (r >>= g) check' (r >>= f) := by
  refine (Checks.self r).bind ?_ nofun
  rintro c c' hc
  cases hc
  exact h c

theorem bind_pure {check' : σ → Except Error τ → Prop} (h : Checks raw check r)
    {g : β → σ} {f : α → τ} (hok : ∀ b a, check b (.ok a) → check' (g b) (.ok (f a)))
    (herror : ∀ b e, check b (.error e) → check' (g b) (.error e)) :
    Checks (do return g (← raw)) check' (do return f (← r)) :=
  h.bind (fun b a hb => .pure (hok b a hb)) fun b e hb => .pure (herror b e hb)

theorem map {c : β → Except Error α} {c' : σ → Except Error τ}
    (h : Checks raw (fun b x => x = c b) r) {g : β → σ}
    {f : α → τ} (hc : ∀ b, c' (g b) = (c b).map f) :
    Checks (do return g (← raw)) (fun b x => x = c' b) (do return f (← r)) := by
  refine h.bind_pure ?_ ?_
  · intro b a hb
    rw [hc, ← hb]
    rfl
  · intro b e hb
    rw [hc, ← hb]
    rfl

theorem lift {b : Except Refusal β} {a : Except Refusal α}
    (hok : ∀ y, b = .ok y → ∃ x, check y x ∧ a = x.mapError .refused)
    (herror : ∀ f, b = .error f → ∃ g, a = .error g) :
    Checks (liftM b) check (liftM a) where
  read := by
    rintro s y t hrun
    cases b with
    | error f => cases hrun
    | ok y' =>
      cases hrun
      obtain ⟨x, hx, rfl⟩ := hok y rfl
      exact ⟨x, hx, by cases x <;> rfl⟩
  unread := by
    rintro s f hrun
    cases b with
    | error f' =>
      obtain ⟨g, rfl⟩ := herror f' rfl
      exact ⟨g, rfl⟩
    | ok y => cases hrun

theorem reads {c : β → Except Error α} (h : Checks raw (fun b x => x = c b) r) {cs : List Char}
    {b : β} {a : α} (hraw : Reads raw cs b) (ha : c b = .ok a) : Reads r cs a := by
  intro rest hrest
  obtain ⟨x, rfl, hr⟩ := h.read (hraw rest hrest)
  rw [hr, ha]
  rfl

theorem wholeText_of_ok {c : β → Except Error α} (h : Checks raw (fun b x => x = c b) r)
    {s : String} {b : β}
    (hraw : wholeText raw s = .ok b) : wholeText r s = (c b).mapError .refused := by
  rw [wholeText] at hraw ⊢
  cases hrun : raw.run s.toList with
  | error f =>
    rw [hrun] at hraw
    cases hraw
  | ok y =>
    obtain ⟨x, rfl, hr⟩ := h.read hrun
    rw [hrun] at hraw
    by_cases hrest : (skipSpaces y.2).isEmpty = true
    · cases (if_pos hrest).symm.trans hraw
      rw [hr]
      cases c y.1 with
      | error e => rfl
      | ok a => exact if_pos hrest
    · cases (if_neg hrest).symm.trans hraw

theorem wholeText_of_error (h : Checks raw check r) {s : String} {f : Refusal}
    (hraw : wholeText raw s = .error f) : ∃ g, wholeText r s = .error g := by
  rw [wholeText] at hraw ⊢
  cases hrun : raw.run s.toList with
  | error f =>
    obtain ⟨g, hg⟩ := h.unread hrun
    exact ⟨g, by rw [hg]⟩
  | ok y =>
    obtain ⟨x, -, hr⟩ := h.read hrun
    rw [hrun] at hraw
    rw [hr]
    by_cases hrest : (skipSpaces y.2).isEmpty = true
    · cases (if_pos hrest).symm.trans hraw
    · cases x with
      | error e => exact ⟨_, rfl⟩
      | ok a => exact ⟨_, if_neg hrest⟩

theorem nested {body' : Nat → Reader β} {body : Nat → Reader α}
    (h : ∀ d, Checks (body' d) check (body d))
    (bracket : Char) (d : Nat) : Checks (nested bracket body' d) check (nested bracket body d) := by
  cases d with
  | zero => exact .malformed
  | succ d => exact .after _ fun _ => h d

theorem brackets {array' object' : Reader β} {array object : Reader α}
    (harray : Checks array' check array) (hobject : Checks object' check object) (c : Option Char) :
    Checks (match c with | some '[' => array' | some '\x7b' => object' | _ => Json.malformed) check
      (match c with | some '[' => array | some '\x7b' => object | _ => Json.malformed) := by
  split
  · exact harray
  · exact hobject
  · exact .malformed

section

variable {V : τ → Except Error σ → Prop} {y : τ} {x : σ}

theorem membersFrom {name : Reader γ} {step' : γ → τ → Reader τ} {step : γ → σ → Reader σ}
    (hok : ∀ c y x, V y (.ok x) → Checks (step' c y) V (step c x))
    (herror : ∀ c y e, V y (.error e) → Yields (step' c y) fun z => V z (.error e))
    (h : V y (.ok x)) (n : Nat) (first : Bool) :
    Checks (membersFrom name step' n first y) V (membersFrom name step n first x) := by
  induction n generalizing y x first with
  | zero => exact .malformed
  | succ n ih =>
    refine .after _ fun again => ?_
    cases again with
    | false => exact .pure h
    | true =>
      refine .after _ fun c => .after _ fun _ => (hok c y x h).bind (fun y x h => ih h false) ?_
      exact fun y e h => .membersFrom (fun c y => herror c y e) h n false

theorem members {step' : String → τ → Reader τ} {step : String → σ → Reader σ}
    (hok : ∀ name y x, V y (.ok x) → Checks (step' name y) V (step name x))
    (herror : ∀ name y e, V y (.error e) → Yields (step' name y) fun z => V z (.error e))
    (h : V y (.ok x)) :
    Checks (members step' y) V (members step x) where
  read s := (membersFrom hok herror h (s.length + 1) true).read (s := s)
  unread s := (membersFrom hok herror h (s.length + 1) true).unread (s := s)

theorem itemsFrom {step' : τ → Reader τ} {step : σ → Reader σ}
    (hok : ∀ y x, V y (.ok x) → Checks (step' y) V (step x))
    (herror : ∀ y e, V y (.error e) → Yields (step' y) fun z => V z (.error e))
    (h : V y (.ok x)) (n : Nat) (first : Bool) :
    Checks (itemsFrom step' n first y) V (itemsFrom step n first x) := by
  induction n generalizing y x first with
  | zero => exact .malformed
  | succ n ih =>
    refine .after _ fun again => ?_
    cases again with
    | false => exact .pure h
    | true =>
      refine (hok y x h).bind (fun y x h => ih h false) ?_
      exact fun y e h => .itemsFrom (fun y => herror y e) h n false

theorem items {step' : τ → Reader τ} {step : σ → Reader σ}
    (hok : ∀ y x, V y (.ok x) → Checks (step' y) V (step x))
    (herror : ∀ y e, V y (.error e) → Yields (step' y) fun z => V z (.error e)) (h : V y (.ok x)) :
    Checks (items step' y) V (items step x) where
  read s := (itemsFrom hok herror h (s.length + 1) true).read (s := s)
  unread s := (itemsFrom hok herror h (s.length + 1) true).unread (s := s)

end

end Checks

section

variable (V : τ → Except Error σ → Prop)

structure Field.Alike (f' : Field τ) (f : Field σ) : Prop where
  name : f'.name = f.name
  isSet : ∀ ⦃y x⦄, V y (.ok x) → f'.isSet y = f.isSet x

structure Field.Plain (f' : Field τ) (f : Field σ) : Prop extends Field.Alike V f' f where
  read : ∀ d y x, V y (.ok x) → Checks (f'.read d y) (fun z a => V z a ∧ ∃ w, a = .ok w)
    (f.read d x)
  error : ∀ d y e, V y (.error e) → Yields (f'.read d y) fun z => V z (.error e)

structure Field.Checked (f' : Field τ) (f : Field σ) : Prop extends Field.Alike V f' f where
  read : ∀ d y x, V y (.ok x) → Checks (f'.read d y) V (f.read d x)
  error : ∀ y e, V y (.error e) → f'.isSet y = true

inductive LastChecked : List (Field τ) → List (Field σ) → Prop
  | nil : LastChecked [] []
  | plain {f' : Field τ} {f : Field σ} {fs' : List (Field τ)} {fs : List (Field σ)} :
    Field.Plain V f' f → LastChecked fs' fs → LastChecked (f' :: fs') (f :: fs)
  | last {f' : Field τ} {f : Field σ} : Field.Checked V f' f → LastChecked [f'] [f]

end

variable {V : τ → Except Error σ → Prop} {y : τ} {x : σ} {fs' : List (Field τ)}
  {fs : List (Field σ)}

theorem LastChecked.isEmpty_eq (h : LastChecked V fs' fs) :
    fs'.isEmpty = fs.isEmpty := by cases h <;> rfl

theorem LastChecked.find? (h : LastChecked V fs' fs) (name : String) :
    (fs'.find? (·.name == name) = none ∧ fs.find? (·.name == name) = none) ∨
      ∃ f' f, fs'.find? (·.name == name) = some f' ∧ fs.find? (·.name == name) = some f ∧
        (Field.Plain V f' f ∨ Field.Checked V f' f) := by
  induction h with
  | nil => exact .inl ⟨rfl, rfl⟩
  | @plain f' f fs' fs hplain _ ih =>
    rw [List.find?_cons, List.find?_cons, hplain.name]
    cases f.name == name with
    | false => exact ih
    | true => exact .inr ⟨f', f, rfl, rfl, .inl hplain⟩
  | @last f' f hchecked =>
    rw [List.find?_cons, List.find?_cons, hchecked.name]
    cases f.name == name with
    | false => exact .inl ⟨rfl, rfl⟩
    | true => exact .inr ⟨f', f, rfl, rfl, .inr hchecked⟩

theorem Checks.member (h : LastChecked V fs' fs) (d : Nat) (name : String) (hV : V y (.ok x)) :
    Checks (Field.member fs' d name y) V (Field.member fs d name x) := by
  rw [Field.member, Field.member]
  obtain ⟨hnone', hnone⟩ | ⟨f', f, hsome', hsome, hf⟩ := h.find? name
  · rw [hnone', hnone]
    exact .after _ fun _ => .pure hV
  · rw [hsome', hsome]
    obtain hf | hf := hf
    · simp only [hf.isSet hV]
      split
      · exact .malformed
      · exact (hf.read d y x hV).imp fun _ _ h => h.1
    · simp only [hf.isSet hV]
      split
      · exact .malformed
      · exact hf.read d y x hV

theorem Yields.member (h : LastChecked V fs' fs) (d : Nat) (name : String) {e : Error}
    (hV : V y (.error e)) : Yields (Field.member fs' d name y) fun z => V z (.error e) := by
  rw [Field.member]
  obtain ⟨hnone, -⟩ | ⟨f', f, hsome, -, hf⟩ := h.find? name
  · rw [hnone]
    exact .after _ fun _ => .pure hV
  · rw [hsome]
    obtain hf | hf := hf
    · simp only
      split
      · exact .malformed
      · exact hf.error d y e hV
    · simp only [hf.error y e hV]
      exact .malformed

def Remains (V : τ → Except Error σ → Prop) (y : τ × List (Field τ))
    (x : Except Error (σ × List (Field σ))) : Prop :=
  match x with
  | .ok x => V y.1 (.ok x.1) ∧ LastChecked V y.2 x.2
  | .error e => V y.1 (.error e) ∧ y.2 = []

def Field.next (d : Nat) (y : σ × List (Field σ)) : Reader (σ × List (Field σ)) :=
  match y.2 with
  | [] => malformed
  | f :: left => do return (← f.read d y.1, left)

theorem Checks.next (d : Nat) (y : τ × List (Field τ)) (x : σ × List (Field σ))
    (h : Remains V y (.ok x)) : Checks (Field.next d y) (Remains V) (Field.next d x) := by
  obtain ⟨y, l'⟩ := y
  obtain ⟨x, l⟩ := x
  obtain ⟨hV, hl⟩ := h
  cases hl with
  | nil => exact .malformed
  | @plain f' f l' l hplain hl =>
    refine (hplain.read d y x hV).bind (fun z w hz => .pure ⟨hz.1, hl⟩) ?_
    rintro z e ⟨-, w, hw⟩
    cases hw
  | @last f' f hchecked =>
    refine (hchecked.read d y x hV).bind (fun z w hz => .pure ⟨hz, .nil⟩) ?_
    exact fun z e hz => .pure ⟨hz, rfl⟩

theorem Yields.next (d : Nat) (y : τ × List (Field τ)) (e : Error) (h : Remains V y (.error e)) :
    Yields (Field.next d y) fun z => Remains V z (.error e) := by
  obtain ⟨y, l'⟩ := y
  obtain ⟨-, rfl⟩ := h
  exact .malformed

theorem Checks.fields (h : LastChecked V fs' fs) (lenient : Bool) (hV : V y (.ok x)) (d : Nat) :
    Checks (fields fs' lenient y d) V (fields fs lenient x d) := by
  refine .after _ fun c => .brackets ?_ ?_ c
  · refine .nested (fun d => ?_) _ d
    have hitems : Checks (Json.items (Field.next d) (y, fs')) (Remains V)
      (Json.items (Field.next d) (x, fs)) :=
      .items (Checks.next d) (Yields.next d) ⟨hV, h⟩
    refine hitems.bind ?_ ?_
    · rintro ⟨y, l'⟩ ⟨x, l⟩ ⟨hV, hl⟩
      simp only [hl.isEmpty_eq]
      split
      · exact .pure hV
      · exact .malformed
    · rintro ⟨y, l'⟩ e ⟨hV, rfl⟩
      simp only [List.isEmpty_nil, Bool.or_true]
      exact .pure hV
  · exact .nested (fun d => .members (fun name y x => .member h d name)
      (fun name y e => .member h d name) hV) _ d

end EntryCache.Json

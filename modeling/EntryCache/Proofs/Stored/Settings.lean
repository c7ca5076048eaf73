import EntryCache.Configuration
import EntryCache.Proofs.Stored.Lengths

namespace EntryCache

open Json

namespace ExpirySettings

inductive Stored : Type
  | eternal
  | timed (rule : ExpiryRule) (length : Duration.Stored)

def stored : ExpirySettings → Stored
  | .eternal => .eternal
  | .timed rule d => .timed rule d.stored

namespace Stored

def Sound : Stored → Prop
  | .eternal => True
  | .timed _ p => p.Sound

def check : Stored → Except Error ExpirySettings
  | .eternal => .ok .eternal
  | .timed rule p => p.check.map (.timed rule)

def content (d : Nat) : Tag → Reader Stored
  | .eternal => do word "null"; return .eternal
  | .timed rule => do return .timed rule (← Form.read d)

def ofTree (t : Tree) : Tag → Except Refusal Stored
  | .eternal => match t with
    | .null => .ok .eternal
    | _ => .error .malformed
  | .timed rule => (Duration.Stored.ofTree t).map (.timed rule)

inductive Progress : Type
  | start
  | tagged (t : Tag)
  | waiting (content : Tree)
  | done (s : Stored)

def Progress.member (d : Nat) (name : String) (p : Progress) : Reader Progress :=
  if name = "policy" then
    match p with
    | .start => do return .tagged (← choice Tag.ofName? (fun _ => none) d)
    | .waiting content => do
      let t ← choice Tag.ofName? (fun _ => none) d
      return .done (← ofTree content t)
    | _ => malformed
  else if name = "duration" then
    match p with
    | .start => do return .waiting (← tree d)
    | .tagged t => do return .done (← content d t)
    | _ => malformed
  else do
    skip
    return p

def Progress.finish : Progress → Reader Stored
  | .done s => return s
  | .tagged .eternal => return .eternal
  | _ => malformed

def readPair (d : Nat) : Reader Stored := do
  if ← more ']' true then
    match Tag.ofName? (← text) with
    | none => malformed
    | some t =>
      if ← more ']' false then
        let s ← content d t
        symbol ']'
        return s
      else malformed
  else malformed

instance : Form Stored where
  write
    | .eternal => writeObject [("policy", writeChars "eternal".toList)]
    | .timed rule p => writeObject
        [("policy", writeChars rule.name.toList), ("duration", Form.write p)]
  read d := do
    match ← peek with
    | some '[' => nested '[' readPair d
    | some '\x7b' => nested '\x7b' (fun d => do
        (← members (Progress.member d) .start).finish) d
    | _ => malformed

end Stored

theorem sound_check : SoundCheck Stored.check stored Stored.Sound where
  eq_ok_iff := by
    rintro (_ | ⟨rule, p⟩) e
    · constructor
      · rintro ⟨⟩
        rfl
      · intro h
        cases e with
        | eternal => rfl
        | timed rule l => cases h
    · refine Duration.sound_check.map_eq_ok_iff.trans ⟨?_, ?_⟩
      · rintro ⟨l, rfl, rfl⟩
        rfl
      · intro h
        cases e with
        | eternal => cases h
        | timed rule l =>
          cases h
          exact ⟨l, rfl, rfl⟩
  sound_iff := by
    rintro (_ | ⟨rule, p⟩)
    · exact ⟨fun _ => ⟨_, rfl⟩, fun _ => trivial⟩
    · exact Duration.sound_check.sound_iff_map

namespace Stored

theorem checks_content (d : Nat) (t : Tag) :
    Checks (content d t) (fun s x => x = s.check) (t.content d) := by
  cases t with
  | eternal => exact .after _ fun _ => .pure rfl
  | timed rule =>
    exact (Duration.checks_read d).map fun _ => rfl

theorem ofTree_of_stored {t : Tree} {tag : Tag} {s : Stored} (h : ofTree t tag = .ok s) :
    tag.ofTree t = s.check.mapError .refused := by
  cases tag with
  | eternal =>
    cases t with
    | null =>
      cases h
      rfl
    | _ => cases h
  | timed rule =>
    cases hp : Duration.Stored.ofTree t with
    | error f =>
      rw [ofTree, hp] at h
      cases h
    | ok p =>
      rw [ofTree, hp] at h
      cases h
      rw [Tag.ofTree, Duration.ofTree_of_stored hp, check]
      cases p.check <;> rfl

theorem ofTree_of_error {t : Tree} {tag : Tag} {f : Refusal} (h : ofTree t tag = .error f) :
    ∃ g, tag.ofTree t = .error g := by
  cases tag with
  | eternal =>
    cases t with
    | null => cases h
    | _ => exact ⟨_, rfl⟩
  | timed rule =>
    cases hp : Duration.Stored.ofTree t with
    | ok p =>
      rw [ofTree, hp] at h
      cases h
    | error f =>
      obtain ⟨g, hg⟩ := Duration.ofTree_of_error hp
      exact ⟨g, by rw [Tag.ofTree, hg]; rfl⟩

theorem checks_ofTree (content : Tree) (t : Tag) :
    Checks (liftM (ofTree content t)) (fun s x => x = s.check) (liftM (t.ofTree content)) :=
  .lift (fun _ h => ⟨_, rfl, ofTree_of_stored h⟩) fun _ => ofTree_of_error

def Progress.check : Progress → Except Error ExpirySettings.Progress
  | .start => .ok .start
  | .tagged t => .ok (.tagged t)
  | .waiting content => .ok (.waiting content)
  | .done s => s.check.map .done

theorem Progress.checks_member (d : Nat) (name : String) (p : Progress)
    (q : ExpirySettings.Progress)
    (h : .ok q = p.check) : Checks (p.member d name) (fun p x => x = p.check)
    (q.member d name) := by
  by_cases hpolicy : name = "policy"
  · rw [show p.member d name = _ from if_pos hpolicy, show q.member d name = _ from if_pos hpolicy]
    cases p with
    | start =>
      cases h
      exact .after _ fun _ => .pure rfl
    | tagged t =>
      cases h
      exact .malformed
    | waiting content =>
      cases h
      exact .after _ fun t => (checks_ofTree content t).map fun _ => rfl
    | done s =>
      obtain ⟨e, -, rfl⟩ := exists_of_ok_eq_map h
      exact .malformed
  by_cases hduration : name = "duration"
  · rw [show p.member d name = _ from (if_neg hpolicy).trans (if_pos hduration),
      show q.member d name = _ from (if_neg hpolicy).trans (if_pos hduration)]
    cases p with
    | start =>
      cases h
      exact .after _ fun _ => .pure rfl
    | tagged t =>
      cases h
      exact (checks_content d t).map fun _ => rfl
    | waiting content =>
      cases h
      exact .malformed
    | done s =>
      obtain ⟨e, -, rfl⟩ := exists_of_ok_eq_map h
      exact .malformed
  · rw [show p.member d name = _ from (if_neg hpolicy).trans (if_neg hduration),
      show q.member d name = _ from (if_neg hpolicy).trans (if_neg hduration)]
    exact .after _ fun _ => .pure h

theorem Progress.yields_member (d : Nat) (name : String) (p : Progress) (e : Error)
    (h : .error e = p.check) : Yields (p.member d name) fun p => .error e = p.check := by
  cases p with
  | done s =>
    by_cases hpolicy : name = "policy"
    · rw [show member d name (.done s) = _ from if_pos hpolicy]
      exact .malformed
    by_cases hduration : name = "duration"
    · rw [show member d name (.done s) = _ from (if_neg hpolicy).trans (if_pos hduration)]
      exact .malformed
    · rw [show member d name (.done s) = _ from (if_neg hpolicy).trans (if_neg hduration)]
      exact .after _ fun _ => .pure h
  | _ => cases h

theorem Progress.checks_finish (p : Progress) (q : ExpirySettings.Progress) (h : .ok q = p.check) :
    Checks p.finish (fun s x => x = s.check) q.finish := by
  cases p with
  | start =>
    cases h
    exact .malformed
  | tagged t =>
    cases h
    cases t with
    | eternal => exact .pure rfl
    | timed rule => exact .malformed
  | waiting content =>
    cases h
    exact .malformed
  | done s =>
    obtain ⟨e, hs, rfl⟩ := exists_of_ok_eq_map h
    exact .pure hs.symm

theorem Progress.yields_finish (p : Progress) (e : Error) (h : .error e = p.check) :
    Yields p.finish fun s => .error e = s.check := by
  cases p with
  | done s => exact .pure (eq_error_of_error_eq_map h).symm
  | _ => cases h

theorem checks_readPair (d : Nat) :
    Checks (readPair d) (fun s x => x = s.check) (ExpirySettings.readPair d) := by
  refine .after _ fun first => ?_
  cases first with
  | false => exact .malformed
  | true =>
    refine .after _ fun name => ?_
    cases Tag.ofName? name with
    | none => exact .malformed
    | some t =>
      refine .after _ fun again => ?_
      cases again with
      | false => exact .malformed
      | true =>
        refine (checks_content d t).bind ?_ ?_
        · exact fun s e h => .after _ fun _ => .pure h
        · exact fun s e h => .after _ fun _ => .pure h

theorem checks_read (d : Nat) :
    Checks (Form.read d) (fun (s : Stored) x => x = s.check)
      (Form.read d : Reader ExpirySettings) := by
  refine .after _ fun c => .brackets (.nested checks_readPair _ d) (.nested (fun d => ?_) _ d) c
  have hmembers : Checks (members (Progress.member d) .start) (fun p x => x = p.check) _ :=
    .members (Progress.checks_member d) (Progress.yields_member d) rfl
  exact hmembers.bind Progress.checks_finish Progress.yields_finish

end Stored

end ExpirySettings

def Json.Field.beside {σ τ : Type} (f : Json.Field σ) : Json.Field (σ × τ) :=
  ⟨f.name, fun y => f.isSet y.1, fun d y => do return (← f.read d y.1, y.2)⟩

namespace CacheSettings

structure Stored : Type where
  flags : Flags
  expiry : ExpirySettings.Stored

def stored (s : CacheSettings) : Stored := ⟨s.flags, s.expiry.stored⟩

namespace Stored

def Sound (p : Stored) : Prop := p.expiry.Sound

def check (p : Stored) : Except Error CacheSettings := p.expiry.check.map (CacheSettings.mk p.flags)

abbrev Parts : Type := CacheSettings.Parts × Option ExpirySettings.Stored

def Parts.finish (p : Parts) : Stored := ⟨p.1.finish.flags, p.2.getD .eternal⟩

def Parts.check (p : Parts) : Except Error CacheSettings.Parts :=
  match p.2 with
  | none => .ok p.1
  | some c => c.check.map fun e => { p.1 with expiry := some e }

def jsonFields : List (Json.Field Parts) :=
  (CacheSettings.jsonFields.take 5).map .beside ++
    [⟨"expiry", fun p => p.2.isSome, fun d p => do return (p.1, some (← Form.read d))⟩]

instance : Form Stored where
  write s := writeObject [
    ("store_by_value", Form.write s.flags.storeByValue),
    ("read_through", Form.write s.flags.readThrough),
    ("write_through", Form.write s.flags.writeThrough),
    ("statistics_enabled", Form.write s.flags.statistics),
    ("management_enabled", Form.write s.flags.management),
    ("expiry", Form.write s.expiry)]
  read d := do return (← fields jsonFields true (.empty, none) d).finish

end Stored

theorem sound_check : SoundCheck Stored.check stored Stored.Sound where
  eq_ok_iff := by
    rintro ⟨f, p⟩ ⟨g, e⟩
    refine ExpirySettings.sound_check.map_eq_ok_iff.trans ⟨?_, ?_⟩
    · rintro ⟨_, rfl, ⟨⟩⟩
      rfl
    · rintro ⟨⟩
      exact ⟨e, rfl, rfl⟩
  sound_iff _ := ExpirySettings.sound_check.sound_iff_map

def Settles (p : Stored.Parts) (x : Except Error Parts) : Prop := p.1.expiry = none ∧ x = p.check

section

variable {put : Parts → Bool → Parts}
  (hput : ∀ p e b, put { p with expiry := e } b = { put p b with expiry := e })

include hput

theorem settles_put {p : Stored.Parts} {x : Except Error Parts} (h : Settles p x) (b : Bool) :
    Settles (put p.1 b, p.2) (x.map (put · b)) := by
  obtain ⟨p, c⟩ := p
  obtain ⟨hp, rfl⟩ := h
  constructor
  · have hsame : { p with expiry := none } = p := by rw [← hp]
    have hnone := congrArg Parts.expiry (hput p none b)
    rwa [hsame] at hnone
  · cases c with
    | none => rfl
    | some c =>
      simp only [Stored.Parts.check]
      cases c.check with
      | error e => rfl
      | ok e => exact congrArg Except.ok (hput p (some e) b)

theorem plain_flag {name : String} {isSet : Parts → Bool}
    (hset : ∀ p e, isSet { p with expiry := e } = isSet p) :
    Json.Field.Plain Settles (.beside ⟨name, isSet, fun d p => do return put p (← Form.read d)⟩)
      ⟨name, isSet, fun d p => do return put p (← Form.read d)⟩ where
  name := rfl
  isSet := by
    rintro ⟨p, _ | c⟩ x ⟨hp, hx⟩
    · cases hx
      rfl
    · obtain ⟨e, -, rfl⟩ := exists_of_ok_eq_map hx
      exact (hset p (some e)).symm
  read d y x h := by
    simp only [Json.Field.beside, bind_assoc, pure_bind]
    refine (Checks.self (Form.read d)).bind_pure ?_ nofun
    rintro b _ ⟨⟩
    exact ⟨settles_put hput h b, _, rfl⟩
  error d y e h := by
    simp only [Json.Field.beside, bind_assoc, pure_bind]
    exact .after _ fun b => .pure (settles_put hput h b)

end

theorem Settles.of_ok {p : Parts} {c : Option ExpirySettings.Stored} {x : Parts}
    (h : Settles (p, c) (.ok x)) :
    c.isSome = x.expiry.isSome ∧ ∀ e, { x with expiry := e } = { p with expiry := e } := by
  obtain ⟨hp, hx⟩ := h
  cases c with
  | none =>
    cases hx
    exact ⟨(congrArg Option.isSome hp).symm, fun _ => rfl⟩
  | some c =>
    obtain ⟨e, -, rfl⟩ := exists_of_ok_eq_map hx
    exact ⟨rfl, fun _ => rfl⟩

theorem settles_some {p : Parts} {c : ExpirySettings.Stored} {x : Except Error ExpirySettings}
    (hp : p.expiry = none) (hx : x = c.check) :
    Settles (p, some c) (x.map fun e => { p with expiry := some e }) :=
  ⟨hp, hx ▸ rfl⟩

theorem lastChecked_jsonFields : LastChecked Settles Stored.jsonFields jsonFields := by
  refine .plain (plain_flag (fun _ _ _ => rfl) fun _ _ => rfl) ?_
  refine .plain (plain_flag (fun _ _ _ => rfl) fun _ _ => rfl) ?_
  refine .plain (plain_flag (fun _ _ _ => rfl) fun _ _ => rfl) ?_
  refine .plain (plain_flag (fun _ _ _ => rfl) fun _ _ => rfl) ?_
  refine .plain (plain_flag (fun _ _ _ => rfl) fun _ _ => rfl) ?_
  refine .last ⟨⟨rfl, fun y x h => h.of_ok.1⟩, ?_, ?_⟩
  · rintro d ⟨p, c⟩ x h
    refine (ExpirySettings.Stored.checks_read d).bind_pure ?_ ?_
    · intro s e hs
      rw [h.of_ok.2]
      exact settles_some h.1 hs
    · exact fun s e hs => settles_some h.1 hs
  · rintro ⟨p, _ | c⟩ e ⟨-, h⟩
    · cases h
    · rfl

theorem checks_read (d : Nat) :
    Checks (Form.read d) (fun (p : Stored) x => x = p.check)
      (Form.read d : Reader CacheSettings) := by
  have hparts := Checks.fields lastChecked_jsonFields true (y := (.empty, none)) (x := .empty)
    ⟨rfl, rfl⟩ d
  refine hparts.bind_pure ?_ ?_
  · rintro ⟨p, _ | c⟩ x ⟨hp, hx⟩
    · cases hx
      rw [Parts.finish, hp]
      rfl
    · obtain ⟨e, hc, rfl⟩ := exists_of_ok_eq_map hx
      exact (congrArg (Except.map _) hc).symm
  · rintro ⟨p, _ | c⟩ e ⟨hp, hx⟩
    · cases hx
    · exact (congrArg (Except.map _) (eq_error_of_error_eq_map hx)).symm

end CacheSettings

end EntryCache

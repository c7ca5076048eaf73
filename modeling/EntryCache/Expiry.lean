import EntryCache.Duration.Form
import EntryCache.Factory

namespace EntryCache

structure ExpiryPolicy : Type where
  creation : Duration
  access : Option Duration
  update : Option Duration
  deriving DecidableEq

inductive ExpiryRule : Type
  | created
  | accessed
  | modified
  | touched
  deriving DecidableEq

namespace ExpiryRule

def all : List ExpiryRule := [.created, .accessed, .modified, .touched]

def name : ExpiryRule → String
  | .created => "created"
  | .accessed => "accessed"
  | .modified => "modified"
  | .touched => "touched"

def ofName? (s : String) : Option ExpiryRule := all.find? (·.name == s)

def onAccess : ExpiryRule → Bool
  | .accessed => true
  | .touched => true
  | _ => false

def onUpdate : ExpiryRule → Bool
  | .modified => true
  | .touched => true
  | _ => false

end ExpiryRule

structure TimedPolicy (rule : ExpiryRule) : Type where
  length : Duration
  deriving DecidableEq

namespace TimedPolicy

variable {rule : ExpiryRule}

def policy (p : TimedPolicy rule) : ExpiryPolicy where
  creation := p.length
  access := if rule.onAccess then some p.length else none
  update := if rule.onUpdate then some p.length else none

def jsonFields : List (Json.Field (Option Duration)) := [
  ⟨"expiry_duration", Option.isSome, fun d _ => do return some (← Json.Form.read d)⟩]

instance : Json.Form (TimedPolicy rule) where
  write p := Json.writeObject [("expiry_duration", Json.Form.write p.length)]
  read d := do
    match ← Json.fields jsonFields false none d with
    | some length => return ⟨length⟩
    | none => Json.malformed

instance : Wire.Form (TimedPolicy rule) where
  write p := Wire.Form.write p.length
  read := TimedPolicy.mk <$> Wire.Form.read

end TimedPolicy

def ExpiryPolicy.eternal : ExpiryPolicy := ⟨.eternal, none, none⟩

inductive ExpirySettings : Type
  | eternal
  | timed (rule : ExpiryRule) (length : Duration)
  deriving DecidableEq

namespace ExpirySettings

instance : Inhabited ExpirySettings := ⟨eternal⟩

def policy : ExpirySettings → ExpiryPolicy
  | .eternal => .eternal
  | .timed rule d => (TimedPolicy.mk d : TimedPolicy rule).policy

def factory {ω : Type} (id : Nat) (s : ExpirySettings) : Factory ω ExpiryPolicy :=
  .singleton id s.policy

inductive Tag : Type
  | eternal
  | timed (rule : ExpiryRule)
  deriving DecidableEq

def Tag.all : List Tag := .eternal :: ExpiryRule.all.map .timed

def Tag.name : Tag → String
  | .eternal => "eternal"
  | .timed rule => rule.name

def Tag.ofName? (s : String) : Option Tag := all.find? (·.name == s)

def tag : ExpirySettings → Tag
  | .eternal => .eternal
  | .timed rule _ => .timed rule

def Tag.content (d : Nat) : Tag → Json.Reader ExpirySettings
  | .eternal => do Json.word "null"; return .eternal
  | .timed rule => do return .timed rule (← Json.Form.read d)

def Tag.ofTree (t : Json.Tree) : Tag → Except Json.Refusal ExpirySettings
  | .eternal => match t with
    | .null => .ok .eternal
    | _ => .error .malformed
  | .timed rule => (Duration.ofTree t).map (.timed rule)

inductive Progress : Type
  | start
  | tagged (t : Tag)
  | waiting (content : Json.Tree)
  | done (s : ExpirySettings)

def Progress.member (d : Nat) (name : String) (p : Progress) : Json.Reader Progress :=
  if name = "policy" then
    match p with
    | .start => do return .tagged (← Json.choice Tag.ofName? (fun _ => none) d)
    | .waiting content => do
      let t ← Json.choice Tag.ofName? (fun _ => none) d
      return .done (← t.ofTree content)
    | _ => Json.malformed
  else if name = "duration" then
    match p with
    | .start => do return .waiting (← Json.tree d)
    | .tagged t => do return .done (← t.content d)
    | _ => Json.malformed
  else do
    Json.skip
    return p

def Progress.finish : Progress → Json.Reader ExpirySettings
  | .done s => return s
  | .tagged .eternal => return .eternal
  | _ => Json.malformed

def readPair (d : Nat) : Json.Reader ExpirySettings := do
  if ← Json.more ']' true then
    match Tag.ofName? (← Json.text) with
    | none => Json.malformed
    | some t =>
      if ← Json.more ']' false then
        let s ← t.content d
        Json.symbol ']'
        return s
      else Json.malformed
  else Json.malformed

instance : Json.Form ExpirySettings where
  write
    | .eternal => Json.writeObject [("policy", Json.writeChars "eternal".toList)]
    | .timed rule d => Json.writeObject
        [("policy", Json.writeChars rule.name.toList), ("duration", Json.Form.write d)]
  read d := do
    match ← Json.peek with
    | some '[' => Json.nested '[' readPair d
    | some '\x7b' => Json.nested '\x7b' (fun d => do
        (← Json.members (Progress.member d) .start).finish) d
    | _ => Json.malformed

instance : Wire.Form ExpirySettings where
  write
    | .eternal => .ok (Wire.varint 0)
    | .timed rule d => Wire.writeCase (ExpiryRule.all.idxOf rule + 1) (Wire.Form.write d)
  read := Wire.fault .neverReadable

end ExpirySettings

end EntryCache

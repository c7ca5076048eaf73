namespace EntryCache

inductive Component : Type
  | listener
  | loader
  | writer
  | processor
  deriving DecidableEq

inductive Complaint : Type
  | cache
  | descriptor
  | transaction
  | illegalState
  | invalidArgument
  | unsupported
  | timeout
  | serialization
  deriving DecidableEq

inductive Error : Type
  | plain : Complaint → String → Error
  | raised : Component → String → Error
  | wrapped : Component → String → Error → Error
  | shutdown : List (String × Error) → Error
  | typeMismatch : (expected found : String) → Error
  | execution : Error → Error
  deriving Inhabited

inductive Kind : Type
  | plain : Complaint → Kind
  | component : Component → Kind
  | shutdown
  | typeMismatch
  | execution
  deriving DecidableEq

def Component.label : Component → String
  | .listener => "Cache entry listener error: "
  | .loader => "Cache loader error: "
  | .writer => "Cache writer error: "
  | .processor => "Entry processor error: "

def Complaint.label : Complaint → String
  | .cache => "Cache error: "
  | .descriptor => "Annotation configuration error: "
  | .transaction => "Transaction error: "
  | .illegalState => "Illegal state: "
  | .invalidArgument => "Invalid argument: "
  | .unsupported => "Unsupported operation: "
  | .timeout => "Timeout: "
  | .serialization => "Serialization error: "

def Complaint.name : Complaint → String
  | .cache => "Cache"
  | .descriptor => "AnnotationConfiguration"
  | .transaction => "Transaction"
  | .illegalState => "IllegalState"
  | .invalidArgument => "InvalidArgument"
  | .unsupported => "Unsupported"
  | .timeout => "Timeout"
  | .serialization => "Serialization"

def Complaint.all : List Complaint := [.cache, .descriptor, .transaction, .illegalState,
  .invalidArgument, .unsupported, .timeout, .serialization]

def Complaint.ofName? (s : String) : Option Complaint := all.find? (·.name == s)

def Component.name : Component → String
  | .listener => "EntryListener"
  | .loader => "Loader"
  | .writer => "Writer"
  | .processor => "EntryProcessor"

def Component.all : List Component := [.listener, .loader, .writer, .processor]

def Component.ofName? (s : String) : Option Component := all.find? (·.name == s)

def Kind.name : Kind → String
  | .plain c => c.name
  | .component w => w.name
  | .shutdown => "Shutdown"
  | .typeMismatch => "TypeMismatch"
  | .execution => "Execution"

namespace Error

@[match_pattern] abbrev cache (text : String) : Error := .plain .cache text
@[match_pattern] abbrev descriptor (text : String) : Error := .plain .descriptor text
@[match_pattern] abbrev transaction (text : String) : Error := .plain .transaction text
@[match_pattern] abbrev illegalState (text : String) : Error := .plain .illegalState text
@[match_pattern] abbrev invalidArgument (text : String) : Error := .plain .invalidArgument text
@[match_pattern] abbrev unsupported (text : String) : Error := .plain .unsupported text
@[match_pattern] abbrev timeout (text : String) : Error := .plain .timeout text
@[match_pattern] abbrev serialization (text : String) : Error := .plain .serialization text

def kind : Error → Kind
  | .plain c _ => .plain c
  | .raised w _ => .component w
  | .wrapped w _ _ => .component w
  | .shutdown _ => .shutdown
  | .typeMismatch _ _ => .typeMismatch
  | .execution _ => .execution

def message : Error → String
  | .plain c t => c.label ++ t
  | .raised w t => w.label ++ t
  | .wrapped w t _ => w.label ++ t
  | .shutdown fs => "Shutdown failed for " ++ toString fs.length ++ " component(s)"
  | .typeMismatch e f => "Type mismatch: expected " ++ e ++ ", found " ++ f
  | .execution e => "Execution failed: " ++ e.message

def cause : Error → Option Error
  | .wrapped _ _ e => some e
  | .execution e => some e
  | _ => none

def source : Error → Option Error
  | .wrapped _ _ e => some e
  | _ => none

def chain : Error → List Error
  | .wrapped w t e => .wrapped w t e :: e.chain
  | .execution e => .execution e :: e.chain
  | e => [e]

def rootCause : Error → Error
  | .wrapped _ _ e => e.rootCause
  | .execution e => e.rootCause
  | e => e

/-- Reports a failure as coming out of a component; one that already does stays as it is. -/
def attributeTo (w : Component) (e : Error) : Error :=
  if e.kind = .component w then e else .wrapped w e.message e

@[simp] theorem rootCause_attributeTo (w : Component) (e : Error) :
    (e.attributeTo w).rootCause = e.rootCause := by
  unfold attributeTo; split <;> rfl

@[simp] theorem kind_attributeTo (w : Component) (e : Error) :
    (e.attributeTo w).kind = .component w := by
  unfold attributeTo; split
  · assumption
  · rfl

theorem attributeTo_of_kind {w : Component} {e : Error} (h : e.kind = .component w) :
    e.attributeTo w = e := if_pos h

theorem attributeTo_of_ne {w : Component} {e : Error} (h : e.kind ≠ .component w) :
    e.attributeTo w = .wrapped w e.message e := if_neg h

theorem chain_eq_cons (e : Error) : e.chain = e :: (e.cause.map chain).getD [] := by
  cases e <;> rfl

theorem getLast?_chain : (e : Error) → e.chain.getLast? = some e.rootCause
  | .wrapped _ _ e => by rw [chain, rootCause, List.getLast?_cons, getLast?_chain e]; rfl
  | .execution e => by rw [chain, rootCause, List.getLast?_cons, getLast?_chain e]; rfl
  | .plain _ _ => rfl
  | .raised _ _ => rfl
  | .shutdown _ => rfl
  | .typeMismatch _ _ => rfl

end Error

end EntryCache

import EntryCache.Wire

namespace EntryCache.Trial

def wrappers : List (String × Component) := [("loader", .loader), ("writer", .writer),
  ("entry_listener", .listener), ("entry_processor", .processor)]

def faultOf : String → Wire.Fault
  | "end" => .unexpectedEnd
  | "bool" => .badBool
  | "utf8" => .badText
  | _ => .refused

def simpleFailure (kind text : String) (cause : Option Error) : Error :=
  match Component.ofName? kind, wrappers.find? (fun w => w.1 ++ "()" == kind), cause with
  | some w, _, some e => .wrapped w text e
  | some w, _, none => .raised w text
  | none, some w, _ => .raised w.2 text
  | none, none, _ => .plain ((Complaint.ofName? kind).getD .cache) text

def failure (kind text : String) (cause : Option Error) (parts : List (String × Error))
    (expected found : String) : Error :=
  match kind with
  | "Shutdown" => .shutdown parts
  | "TypeMismatch" => .typeMismatch expected found
  | "Execution" => .execution (cause.getD (.cache text))
  | "from_postcard" => (faultOf text).toError
  | kind => simpleFailure kind text cause

def wrapEach (e : Error) : List String → List Error
  | [] => [e]
  | name :: names =>
    e :: wrapEach (match wrappers.lookup name with
      | some w => e.attributeTo w
      | none => .execution e) names

end EntryCache.Trial

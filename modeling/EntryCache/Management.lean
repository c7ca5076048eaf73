import EntryCache.Json.Form
import EntryCache.Wire

namespace EntryCache

inductive ManagementKind : Type
  | configuration
  | statistics
  deriving DecidableEq

namespace ManagementKind

def all : List ManagementKind := [.configuration, .statistics]

def name : ManagementKind → String
  | .configuration => "Configuration"
  | .statistics => "Statistics"

def ofName? (s : String) : Option ManagementKind := all.find? (·.name == s)

instance : Json.Form ManagementKind where
  write k := Json.writeChars k.name.toList
  read := Json.choice ofName? fun _ => none

instance : Wire.Form ManagementKind where
  write k := .ok (Wire.varint (all.idxOf k))
  read := Wire.readCase fun n => all[n]?.map pure

end ManagementKind

inductive OptionalFeature : Type
  | storeByReference
  deriving DecidableEq

namespace OptionalFeature

def name : OptionalFeature → String
  | .storeByReference => "StoreByReference"

def ofName? (s : String) : Option OptionalFeature :=
  if s = name .storeByReference then some .storeByReference else none

instance : Json.Form OptionalFeature where
  write f := Json.writeChars f.name.toList
  read := Json.choice ofName? fun _ => none

instance : Wire.Form OptionalFeature where
  write _ := .ok (Wire.varint 0)
  read := Wire.readCase fun n => if n = 0 then some (return .storeByReference) else none

end OptionalFeature

def sanitizeChar (c : Char) : Char :=
  if c = ',' ∨ c = ':' ∨ c = '=' ∨ c = '\n' then '.' else c

def sanitize (s : String) : String := s.map sanitizeChar

def objectName (kind : ManagementKind) (uri name : String) : String :=
  "cache:type=Cache" ++ kind.name ++ ",CacheManager=" ++ sanitize uri ++ ",Cache=" ++ sanitize name

end EntryCache

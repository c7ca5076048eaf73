import EntryCache.EntryTypes
import EntryCache.Trial.Names

namespace EntryCache.Trial

def listenerFor : (t : EntryTypes) → ListenerConfiguration World String String →
    ListenerConfiguration World t.key.Carrier t.value.Carrier
  | ⟨.text, .text⟩, l => l
  | _, l => deaf l

def loaderFor : (t : EntryTypes) → Factory World (Loader World String String) →
    Option (Factory World (Loader World t.key.Carrier t.value.Carrier))
  | ⟨.text, .text⟩, l => some l
  | _, _ => none

def writerFor : (t : EntryTypes) → Factory World (Writer World String String) →
    Option (Factory World (Writer World t.key.Carrier t.value.Carrier))
  | ⟨.text, .text⟩, w => some w
  | _, _ => none

def addListeners : (t : EntryTypes) → List (Naming (ListenerConfiguration World String String)) →
    t.Configuration World → Action Names (t.Configuration World)
  | ⟨.text, .text⟩, ls => fun c => ls.foldlM (fun c make => do
      Action.ofExcept (c.addListener (← modifyGet make))) c
  | _, _ => pure

def configure (t : EntryTypes) (id : Nat) (flags : Flags)
    (loader : Option (Factory World (Loader World String String)))
    (writer : Option (Factory World (Writer World String String)))
    (listeners : List (Naming (ListenerConfiguration World String String))) :
    Action Names (AnyConfiguration World) := do
  let c : t.Configuration World := { Configuration.new id with
    flags := flags
    loader := loader.bind (loaderFor t)
    writer := writer.bind (writerFor t) }
  return ⟨t, ← addListeners t listeners c⟩

end EntryCache.Trial

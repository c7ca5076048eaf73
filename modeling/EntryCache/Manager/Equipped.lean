import EntryCache.Manager

/-! Managers that make caches by a table of constructors, one for each pair of types that is
supported. The types of a configuration are erased on its way to a constructor, which takes them
back, and those of the cache on its way out. -/

namespace EntryCache

abbrev CopierFor (ω : Type) (t : EntryTypes) : Type :=
  t.Configuration ω → t.value.Carrier → Except Error t.value.Carrier

namespace CopierFor

variable {ω : Type} {t : EntryTypes}

def byReference : CopierFor ω t := fun _ => .ok

def byValue : CopierFor ω t := fun config => t.value.copy config.flags.storeByValue

end CopierFor

abbrev Constructor (ω : Type) : Type := String → AnyConfiguration ω → Action ω (AnyCache ω)

def Constructor.of {ω : Type} (t : EntryTypes) (copierFor : CopierFor ω t) :
    Constructor ω := fun name config => do
  let config ← Action.ofExcept (config.typed t)
  fun w =>
    let (cache, w) := Cache.create name config (copierFor config) w
    (.ok ⟨t, cache⟩, w)

structure Equipped (ω : Type) : Type where
  manager : Manager ω
  constructors : FiniteMap EntryTypes (Constructor ω)

namespace Equipped

variable {ω β : Type}

abbrev Op (ω β : Type) : Type := Action (Equipped ω × ω) β

def supportWith (t : EntryTypes) (copierFor : CopierFor ω t) (m : Equipped ω) : Equipped ω :=
  { m with constructors := m.constructors.insert t (.of t copierFor) }

def support (t : EntryTypes) : Equipped ω → Equipped ω := supportWith t .byReference

def supportByValue (t : EntryTypes) : Equipped ω → Equipped ω := supportWith t .byValue

def equip (m : Manager ω) : Equipped ω :=
  (⟨m, ∅⟩ : Equipped ω)
    |> supportByValue ⟨.text, .text⟩
    |> supportByValue ⟨.text, .word⟩
    |> supportByValue ⟨.word, .text⟩
    |> supportByValue ⟨.text, .integer⟩
    |> supportByValue ⟨.key, .text⟩
    |> supportByValue ⟨.key, .word⟩
    |> support ⟨.key, .failure⟩

def new (uri : String) (scope : ScopeId) (properties : Properties) :
    Equipped ω := equip (.new uri scope properties)

def onManager (op : Manager.Op ω β) : Op ω β :=
  op.focus (fun s => (s.1.manager, s.2)) fun t s => ({ s.1 with manager := t.1 }, t.2)

def constructor? (t : EntryTypes) :
    Op ω (Option (Constructor ω)) := fun s => (.ok (s.1.constructors.get? t), s)

def createErased (name : String) (config : AnyConfiguration ω) : Op ω (CacheId × AnyCache ω) := do
  onManager Manager.ensureOpen
  if ← onManager (Manager.look (·.held.contains name)) then .fail (Manager.existsError name)
  else
    match ← constructor? config.types with
    | none => .fail (Manager.unsupportedError config.types)
    | some make => do
      let c ← (make name config).beside
      onManager fun (m, w) => (.ok (m.created.length, c), (m.holding name c, w))

/-- The types of the new cache are taken back only when it is already held. -/
def createCache (t : EntryTypes) (name : String) (config : t.Configuration ω) : Op ω CacheId := do
  let (id, c) ← createErased name ⟨t, config⟩
  discard (Action.ofExcept (c.typed t))
  return id

def getCache (t : EntryTypes) (name : String) :
    Op ω (Option CacheId) := onManager (Manager.getCache t name)

def cacheNames : Op ω (List String) := onManager Manager.cacheNames

end Equipped

end EntryCache

import EntryCache.Method.Resolver
import EntryCache.Provider

namespace EntryCache.Trial

variable {σ τ : Type}

def veiled (s : CacheSource σ τ) (lookups makings : Option Error) : CacheSource (Nat × σ) τ where
  find t name := fun (hidden, x) =>
    match hidden, lookups with
    | n + 1, _ => (.ok none, (n, x))
    | 0, some e => (.error e, (0, x))
    | 0, none =>
      let (r, x) := s.find t name x
      (r, (0, x))
  make t name := fun (hidden, x) =>
    match makings with
    | some e => (.error e, (hidden, x))
    | none =>
      let (r, x) := s.make t name x
      (r, (hidden, x))

def stocked (existing : List (String × EntryTypes)) (closed : Bool) : Manager Unit :=
  let m := existing.foldl (fun s p => (Manager.createCache p.1 ⟨p.2, .new 0⟩ s).2)
    (Manager.new Provider.defaultUri Scopes.system [], ())
  if closed then m.1.close else m.1

end EntryCache.Trial

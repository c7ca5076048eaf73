import EntryCache.Proofs.Cache.Invariant

namespace EntryCache.Cache

open EntryCache.Action (Keeps)

variable {ω κ α β : Type} [DecidableEq κ] {c c' c'' : Cache ω κ α}

structure Later (c c' : Cache ω κ α) : Prop where
  name : c'.name = c.name
  closed : c.closed = true → c'.closed = true

namespace Later

theorem refl (c : Cache ω κ α) : c.Later c := ⟨rfl, id⟩

theorem trans (h : c.Later c') (h' : c'.Later c'') : c.Later c'' :=
  ⟨h'.name.trans h.name, fun hc => h'.closed (h.closed hc)⟩

theorem close (c : Cache ω κ α) : c.Later c.close := ⟨rfl, fun _ => rfl⟩

end Later

def Lasting (J : Cache ω κ α → Prop) :
    Prop := ∀ c es n, J c → J { c with entries := es, stats := n }

abbrev Having (J : Cache ω κ α → Prop) (s : Cache ω κ α × ω) : Prop := J s.1

variable {J : Cache ω κ α → Prop}

namespace Having

theorem keeps {a : Op ω κ α β} (h : a.Leaves Prod.fst) : Keeps (Having J) a := h.keeps J

theorem keeps_update {f : Cache ω κ α → Cache ω κ α} (hf : ∀ c, J c → J (f c)) :
    Keeps (Having J) (update f) :=
  Cache.keeps_update fun c _ h => hf c h

end Having

namespace Lasting

theorem keeps_enter (h : Lasting J) (k : κ) (v : α) : Keeps (Having J) (update (enter k v)) :=
  Having.keeps_update fun c hc => h c _ c.stats hc

theorem keptByChanges (h : Lasting J) : KeptByChanges (Having J) where
  counts c _ n hc := h c c.entries n hc
  stores k v := by
    refine (Having.keeps fun _ => rfl : Keeps _ (writeThrough k v)).bind fun _ => ?_
    refine (keeps_copied v).bind fun stored => ?_
    refine (keeps_look _).bind fun old => ?_
    have henter : Keeps (Having J) (update fun c => (c.enter k stored).countPut) :=
      Having.keeps_update fun c hc => h c _ _ hc
    refine henter.bind fun _ => ?_
    cases old with
    | some o => exact (Having.keeps fun _ => rfl).bind fun _ => .pure _
    | none => exact (Having.keeps fun _ => rfl).bind fun _ => .pure _
  deletes k := by
    refine (Having.keeps fun _ => rfl : Keeps _ (deleteThrough k)).bind fun _ => ?_
    refine (keeps_look _).bind fun old => ?_
    cases old with
    | some o =>
      have hwithout : Keeps (Having J) (update (without k)) :=
        Having.keeps_update fun c hc => h c _ _ hc
      refine hwithout.bind fun _ => ?_
      exact (Having.keeps fun _ => rfl).bind fun _ => .pure _
    | none => exact .pure _
  loads c' l k _ := fun _ h => h
  readsThrough c' w l k _ _ hc := by
    refine Keeps.bind (I := Having J) (Having.keeps fun _ => rfl) (fun v => ?_) (c', w) hc
    cases v with
    | none => exact .pure _
    | some v =>
      refine (keeps_copied v).bind fun stored => ?_
      refine (h.keeps_enter k stored).bind fun _ => ?_
      exact (Having.keeps fun _ => rfl).bind fun _ => .pure _

theorem keeps_loadInto (h : Lasting J) (keys : List κ) (all : Bool) :
    Keeps (Having J) (loadInto keys all) := by
  refine (keeps_look _).bind fun l => ?_
  cases l with
  | none => exact .pure _
  | some l =>
    refine (keeps_look _).bind fun ks => ?_
    refine (Having.keeps fun _ => rfl).bind fun found => .forEach fun p _ => ?_
    exact (keeps_copied p.2).bind fun stored => h.keeps_enter p.1 stored

end Lasting

def Operation.Respects (J : Cache ω κ α → Prop) : Operation ω κ α β → Prop
  | .register handle config => Keeps (Having J) (registerListener handle config)
  | .deregister handle => Keeps (Having J) (deregisterListener handle)
  | .close => ∀ c, J c → J c.close
  | _ => True

theorem Lasting.admits (h : Lasting J) {op : Operation ω κ α β} (hop : op.Respects J) :
    op.Admits (Having J) := by
  cases op with
  | loadAll ks all l =>
    apply keeps_opened
    exact (h.keeps_loadInto ks all).attempt.bind fun _ => Having.keeps fun _ => rfl
  | clear => exact keeps_opened (Having.keeps_update fun c hc => h c _ c.stats hc)
  | getOrPutWith k compute => exact fun _ _ h => h
  | register handle config => exact hop
  | deregister handle => exact hop
  | close => exact Having.keeps_update hop
  | _ => trivial

theorem registerListener_keeps {I : Cache ω κ α × ω → Prop}
    (h : ∀ c w rs w', I (c, w) → I ({ c with listeners := rs }, w')) (handle : ListenerHandle)
    (config : ListenerConfiguration ω κ α) : Keeps I (registerListener handle config) := by
  refine keeps_ensureOpen.bind fun _ => ?_
  refine (keeps_look _).bind fun rs => ?_
  cases rs.any (·.handle == handle) with
  | true => exact .fail _
  | false => exact fun s hs => h s.1 s.2 _ _ hs

theorem lasting_later (c : Cache ω κ α) : Lasting c.Later := fun _ _ _ h => ⟨h.name, h.closed⟩

theorem Operation.respects_later (op : Operation ω κ α β) (c : Cache ω κ α) :
    op.Respects c.Later := by
  cases op with
  | register handle config =>
      exact registerListener_keeps (fun _ _ _ _ h => ⟨h.name, h.closed⟩) handle config
  | deregister handle => exact keeps_opened (Having.keeps_update fun _ h => ⟨h.name, h.closed⟩)
  | close => exact fun c' h => h.trans (.close c')
  | _ => trivial

theorem Operation.later_run [DecidableEq α] (op : Operation ω κ α β) (s : Cache ω κ α × ω) :
    s.1.Later ((op.run id).run s).2.1 :=
  op.keeps_run (lasting_later s.1).keptByChanges
    ((lasting_later s.1).admits (op.respects_later s.1)) s (.refl s.1)

theorem later_create (name : String) (config : Configuration ω κ α)
    (copy : α → Except Error α) (w : ω) :
    (create name config copy w).1.name = name ∧ (create name config copy w).1.closed = false := by
  let I : Cache ω κ α × ω → Prop := fun s => s.1.name = name ∧ s.1.closed = false
  exact Keeps.forEach (I := I) (fun p _ => registerListener_keeps (fun _ _ _ _ h => h) _ p.1)
    _ ⟨rfl, rfl⟩

end EntryCache.Cache

import EntryCache.Proofs.Action.Keeps
import EntryCache.Proofs.Cache.Composition

namespace EntryCache

variable {σ ω κ α β γ : Type} [DecidableEq κ]

/-- What a failure of a component is to the callers of a cache: a failure of that component's kind,
which is the failure itself if it was of that kind before, and otherwise quotes and wraps it. -/
structure Error.Attributed (x : Component) (e err : Error) : Prop where
  kind : err.kind = .component x
  same : e.kind = .component x → err = e
  wrapped : e.kind ≠ .component x → err = .wrapped x e.message e
  rootCause : err.rootCause = e.rootCause

omit [DecidableEq κ] in
theorem Error.attributed (x : Component) (e : Error) : Attributed x e (e.attributeTo x) :=
  ⟨kind_attributeTo x e, attributeTo_of_kind, attributeTo_of_ne, rootCause_attributeTo x e⟩

abbrev Failure : Type := Component × Error

def Surfaces (fs : List Failure) (r : Except Error γ) : Prop :=
  ∀ x e, fs.getLast? = some (x, e) → ∃ err, r = .error err ∧ Error.Attributed x e err

namespace Surfaces

variable {fs gs : List Failure} {e : Error}

theorem nil (r : Except Error γ) : Surfaces [] r := nofun

theorem single (x : Component) (e : Error) :
    Surfaces [(x, e)] (.error (e.attributeTo x) : Except Error γ) := by
  rintro _ _ ⟨⟩
  exact ⟨_, rfl, e.attributed x⟩

theorem eq_nil {x : γ} (h : Surfaces fs (.ok x)) : fs = [] := by
  rw [← List.getLast?_eq_none_iff]
  cases hlast : fs.getLast? with
  | none => rfl
  | some f =>
    obtain ⟨err, herr, -⟩ := h f.1 f.2 hlast
    cases herr

theorem of_error (h : Surfaces fs (.error e : Except Error β)) :
    Surfaces fs (.error e : Except Error γ) := by
  intro x e' hlast
  obtain ⟨err, ⟨⟩, hattributed⟩ := h x e' hlast
  exact ⟨e, rfl, hattributed⟩

theorem map {r : Except Error β} (h : Surfaces fs r) (f : β → γ) : Surfaces fs (r.map f) := by
  cases r with
  | error e => exact h.of_error
  | ok x =>
    rw [h.eq_nil]
    exact nil _

theorem append {r : Except Error γ} (hg : Surfaces gs r) (hf : gs = [] → Surfaces fs r) :
    Surfaces (fs ++ gs) r := by
  intro x e hlast
  rw [List.getLast?_append] at hlast
  cases hgs : gs.getLast? with
  | none => exact hf (List.getLast?_eq_none_iff.1 hgs) x e (by rwa [hgs] at hlast)
  | some g => exact hg x e (by rwa [hgs] at hlast ⊢)

end Surfaces

namespace Action

variable {raised : σ → List Failure} {I : σ → Prop}

def Reports (raised : σ → List Failure) (x : Component) (a : Action σ γ) : Prop :=
  ∀ s, raised (a.run s).2 = raised s ++ match (a.run s).1 with
    | .ok _ => []
    | .error e => [(x, e)]

def Surfacing (I : σ → Prop) (raised : σ → List Failure) (a : Action σ γ) : Prop :=
  ∀ s, I s → I (a.run s).2 ∧ ∃ fs, raised (a.run s).2 = raised s ++ fs ∧ Surfaces fs (a.run s).1

namespace Surfacing

omit [DecidableEq κ]

theorem of_leaves {a : Action σ γ} (hI : Keeps I a) (h : a.Leaves raised) : Surfacing I raised a :=
  fun s hs => ⟨hI s hs, [], by rw [h s, List.append_nil], .nil _⟩

theorem pure (x : γ) : Surfacing I raised (pure x : Action σ γ) := of_leaves (.pure x) fun _ => rfl

theorem ofExcept (r : Except Error γ) : Surfacing I raised (ofExcept r : Action σ γ) :=
  of_leaves (.ofExcept r) fun _ => rfl

theorem bind {a : Action σ β} {f : β → Action σ γ} (ha : Surfacing I raised a)
    (hf : ∀ x, Surfacing I raised (f x)) : Surfacing I raised (a >>= f) := by
  intro s hs
  have ha := ha s hs
  rw [run_bind]
  rcases hrun : a.run s with ⟨e | x, t⟩ <;> rw [hrun] at ha
  · obtain ⟨ht, fs, hraised, hsurfaces⟩ := ha
    exact ⟨ht, fs, hraised, hsurfaces.of_error⟩
  · obtain ⟨ht, fs, hraised, hsurfaces⟩ := ha
    rw [hsurfaces.eq_nil, List.append_nil] at hraised
    rw [← hraised]
    exact hf x t ht

theorem forEach {f : β → Action σ Unit} {xs : List β} (h : ∀ x ∈ xs, Surfacing I raised (f x)) :
    Surfacing I raised (forEach f xs) := by
  induction xs with
  | nil => exact pure ()
  | cons x xs ih =>
    rw [List.forall_mem_cons] at h
    exact h.1.bind fun _ => ih h.2

end Surfacing

theorem Reports.surfacing {x : Component} {a : Action σ γ} (h : a.Reports raised x) :
    Surfacing (fun _ => True) raised (a.mapError (·.attributeTo x)) := by
  intro s _
  have hs := h s
  rw [run_mapError]
  rcases hrun : a.run s with ⟨e | y, t⟩ <;> rw [hrun] at hs
  · exact ⟨trivial, _, hs, .single x e⟩
  · exact ⟨trivial, _, hs, .nil _⟩

end Action

structure Loader.Reports (raised : ω → List Failure) (l : Loader ω κ α) : Prop where
  load : ∀ k, (l.load k).Reports raised .loader
  loadAll : ∀ ks, (l.loadAll ks).Reports raised .loader

structure Writer.Reports (raised : ω → List Failure) (wr : Writer ω κ α) : Prop where
  write : ∀ k v, (wr.write k v).Reports raised .writer
  delete : ∀ k, (wr.delete k).Reports raised .writer

structure Registered.Reports (raised : ω → List Failure) (r : Registered ω κ α) : Prop where
  hooks : ∀ t es, (r.listener.dispatch t es).Reports raised .listener
  filters : ∀ g ∈ r.filter, ∀ e, (g e).Leaves raised

namespace Cache

structure Reporting (raised : ω → List Failure) (c : Cache ω κ α) : Prop where
  loader : ∀ l ∈ c.loader, l.Reports raised
  writer : ∀ wr ∈ c.writer, wr.Reports raised
  listeners : ∀ r ∈ c.listeners, r.Reports raised

abbrev Op.Surfacing (raised : ω → List Failure) (op : Op ω κ α γ) : Prop :=
  Action.Surfacing (fun s => s.1.Reporting raised) (fun s => raised s.2) op

namespace Op.Surfacing

variable {raised : ω → List Failure}

theorem beside {a : Cache ω κ α → Action ω γ}
    (h : ∀ c : Cache ω κ α, c.Reporting raised → Action.Surfacing (fun _ => True) raised (a c)) :
    Op.Surfacing raised fun s => (a s.1).beside s := fun s hs => ⟨hs, (h s.1 hs s.2 trivial).2⟩

theorem world {a : Action ω γ} (h : Action.Surfacing (fun _ => True) raised a) :
    Op.Surfacing raised (a.beside : Op ω κ α γ) := beside (a := fun _ => a) fun _ _ => h

theorem look (f : Cache ω κ α → γ) :
    Op.Surfacing raised (look f) := .of_leaves (fun _ h => h) fun _ => rfl

theorem look_bind {f : Cache ω κ α → β} {g : β → Op ω κ α γ}
    (h : ∀ c, c.Reporting raised → Op.Surfacing raised (g (f c))) :
      Op.Surfacing raised (Cache.look f >>= g) :=
  fun s hs => h s.1 hs s hs

theorem update {f : Cache ω κ α → Cache ω κ α}
    (h : ∀ c, c.Reporting raised → (f c).Reporting raised) :
    Op.Surfacing raised (update f) := .of_leaves (fun s hs => h s.1 hs) fun _ => rfl

theorem copied (v : α) : Op.Surfacing raised (copied v : Op ω κ α α) :=
  .of_leaves (fun _ h => h) fun _ => rfl

theorem ensureOpen : Op.Surfacing raised (ensureOpen : Op ω κ α Unit) := by
  rintro ⟨c, w⟩ h
  cases hc : c.closed with
  | false =>
    rw [run_ensureOpen hc]
    exact ⟨h, [], (List.append_nil _).symm, .nil _⟩
  | true =>
    rw [run_ensureOpen_of_closed hc]
    exact ⟨h, [], (List.append_nil _).symm, .nil _⟩

theorem notify (t : EventType) (k : κ) (value old : Option α) :
    Op.Surfacing raised (notify t k value old : Op ω κ α Unit) := by
  apply beside (a := fun c => Action.forEach (fun r => tell r (eventFor c.name t k value old r))
    c.listeners)
  intro c hc
  refine .forEach fun r hr => ?_
  have haccepts : (accepts r (eventFor c.name t k value old r)).Leaves raised := by
    unfold accepts
    split
    · next g hg => exact (hc.listeners r hr).filters g hg _
    · exact fun _ => rfl
  refine (Action.Surfacing.of_leaves (fun _ _ => trivial) haccepts).bind fun b => ?_
  cases b with
  | true => exact ((hc.listeners r hr).hooks _ _).surfacing
  | false => exact .pure ()

theorem writeThrough (k : κ) (v : α) : Op.Surfacing raised (writeThrough k v : Op ω κ α Unit) := by
  apply beside (a := fun c => onSome c.writer? fun wr => (wr.write k v).mapError
    (·.attributeTo .writer))
  intro c hc
  cases hwr : c.writer? with
  | none => exact .pure ()
  | some wr => exact ((hc.writer wr (writer_of_writer? hwr)).write k v).surfacing

theorem deleteThrough (k : κ) : Op.Surfacing raised (deleteThrough k : Op ω κ α Unit) := by
  apply beside (a := fun c => onSome c.writer? fun wr => (wr.delete k).mapError
    (·.attributeTo .writer))
  intro c hc
  cases hwr : c.writer? with
  | none => exact .pure ()
  | some wr => exact ((hc.writer wr (writer_of_writer? hwr)).delete k).surfacing

theorem enters (k : κ) (v : α) (f : Statistics → Statistics) : Op.Surfacing raised
    (Cache.update fun c : Cache ω κ α => { c.enter k v with stats := f c.stats }) :=
  update fun _ hc => ⟨hc.loader, hc.writer, hc.listeners⟩

theorem counts (f : Statistics → Statistics) : Op.Surfacing raised
    (Cache.update fun c : Cache ω κ α => { c with stats := f c.stats }) :=
  update fun _ hc => ⟨hc.loader, hc.writer, hc.listeners⟩

theorem storeValue (k : κ) (v : α) :
    Op.Surfacing raised (storeValue k v : Op ω κ α (Option α)) := by
  refine (writeThrough k v).bind fun _ => ?_
  refine (copied v).bind fun stored => ?_
  refine (look _).bind fun old => ?_
  refine (enters k stored (·.recordPuts 1)).bind fun _ => ?_
  cases old with
  | some o => exact (notify _ _ _ _).bind fun _ => .pure _
  | none => exact (notify _ _ _ _).bind fun _ => .pure _

theorem deleteValue (k : κ) : Op.Surfacing raised (deleteValue k : Op ω κ α (Option α)) := by
  refine (deleteThrough k).bind fun _ => ?_
  refine (look _).bind fun old => ?_
  cases old with
  | none => exact .pure none
  | some o =>
    have hwithout : Op.Surfacing raised (Cache.update (without k) : Op ω κ α Unit) :=
      update fun _ hc => ⟨hc.loader, hc.writer, hc.listeners⟩
    refine hwithout.bind fun _ => ?_
    exact (notify _ _ _ _).bind fun _ => .pure _

theorem compositional : Compositional fun _ (op : Op ω κ α _) => op.Surfacing raised where
  pure := .pure
  bind h hf := h.bind hf
  opens := ensureOpen
  looks := look
  copies := copied
  stores := storeValue
  deletes := deleteValue

theorem readThrough (k : κ) {l : Loader ω κ α} (hl : l.Reports raised) :
    Op.Surfacing raised (readThrough k l) := by
  refine (world (hl.load k).surfacing).bind fun v => ?_
  cases v with
  | none => exact .pure none
  | some v =>
    refine (copied v).bind fun stored => ?_
    refine (enters k stored id).bind fun _ => ?_
    exact (notify _ _ _ _).bind fun _ => .pure _

theorem get (k : κ) : Op.Surfacing raised (get k : Op ω κ α (Option α)) := by
  refine ensureOpen.bind fun _ => ?_
  refine (look _).bind fun v => ?_
  cases v with
  | some v =>
    refine (copied v).bind fun u => ?_
    exact (counts (·.recordHits 1)).bind fun _ => .pure _
  | none =>
    refine (counts (·.recordMisses 1)).bind fun _ => ?_
    apply look_bind
    intro c hc
    cases hl : c.loader? with
    | none => exact .pure none
    | some l => exact readThrough k (hc.loader l (loader_of_loader? hl))

theorem loadInto (keys : List κ) (all : Bool) :
    Op.Surfacing raised (loadInto keys all : Op ω κ α Unit) := by
  apply look_bind
  intro c hc
  cases hl : c.loader with
  | none => exact .pure ()
  | some l =>
    refine (look _).bind fun ks => ?_
    refine (world ((hc.loader l hl).loadAll ks).surfacing).bind fun m => ?_
    refine .forEach fun p _ => ?_
    exact (copied p.2).bind fun stored => enters p.1 stored id

end Op.Surfacing

end Cache

end EntryCache

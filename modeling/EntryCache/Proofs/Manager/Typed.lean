import EntryCache.Proofs.Manager.Constructors

namespace EntryCache.Equipped

variable {ω β : Type} {m m' : Equipped ω} {t : EntryTypes} {name : String} {id : CacheId}

inductive Operation (ω β : Type) : Type
  | support (t : EntryTypes) (copierFor : CopierFor ω t)
  | create (t : EntryTypes) (name : String) (config : t.Configuration ω)
  | plain (op : Manager.Operation ω β)

noncomputable def runPlain : Manager.Operation ω β → Op ω (Manager.Reply β)
  | .create name config => (fun made => .cache made.1) <$> createErased name config
  | op => onManager op.run

noncomputable def Operation.run : Operation ω β → Op ω (Manager.Reply β)
  | .support t copierFor => fun s => (.ok .done, (s.1.supportWith t copierFor, s.2))
  | .create t name config => .cache <$> createCache t name config
  | .plain op => runPlain op

noncomputable def Operation.runAll (ops : List (Operation ω β)) (s : Equipped ω × ω) :
    List (Except Error (Manager.Reply β)) × (Equipped ω × ω) :=
  match ops with
  | [] => ([], s)
  | op :: ops =>
    let (r, s) := op.run s
    let (rs, s) := runAll ops s
    (r :: rs, s)

def Operation.Frees (name : String) : Operation ω β → Prop
  | .plain op => op.Frees name
  | _ => False

structure Becomes (m : Equipped ω) (op : Operation ω β) (m' : Equipped ω) : Prop where
  manager : ∃ done : Manager.Operation ω β,
    m.manager.Becomes done m'.manager ∧ ∀ name, done.Frees name → op.Frees name
  sound : m'.Sound
  constructors : ∀ t, m'.constructors.contains t = true ↔
    m.constructors.contains t = true ∨ ∃ copierFor, op = .support t copierFor

theorem Becomes.of_manager {op : Operation ω β} {done : Manager.Operation ω β} (h : m.Sound)
    (hop : ∀ t copierFor, op ≠ .support t copierFor) (hb : m.manager.Becomes done m'.manager)
    (hfrees : ∀ name, done.Frees name → op.Frees name)
    (hconstructors : m'.constructors = m.constructors) :
    m.Becomes op m' where
  manager := ⟨done, hb, hfrees⟩
  sound := by
    intro t make hmake
    rw [hconstructors] at hmake
    exact h hmake
  constructors t := by
    rw [hconstructors]
    exact (or_iff_left fun ⟨copierFor, heq⟩ => hop t copierFor heq).symm

theorem becomes_createErased (h : m.Sound) (name : String) (config : AnyConfiguration ω) (w : ω) :
    let s := ((createErased name config).run (m, w)).2
    m.manager.Becomes (.create name config : Manager.Operation ω β) s.1.manager ∧
      s.1.constructors = m.constructors := by
  rcases createErased_cases h name config w with ⟨e, hrun⟩ | ⟨c, w', hopen, hfree, -, hname, hrun⟩
  · rw [hrun]
    exact ⟨.same id, rfl⟩
  · rw [hrun]
    exact ⟨.made hopen hfree hname, rfl⟩

theorem becomes_runPlain (h : m.Sound) (op : Manager.Operation ω β) (w : ω) :
    let s := ((runPlain op).run (m, w)).2
    m.manager.Becomes op s.1.manager ∧ s.1.constructors = m.constructors := by
  cases op with
  | create name config =>
    rw [runPlain, Action.snd_run_map]
    exact becomes_createErased h name config w
  | _ => exact ⟨Manager.Operation.becomes _ m.manager w, rfl⟩

theorem Operation.becomes (op : Operation ω β) (h : m.Sound) (w : ω) :
    m.Becomes op (op.run.run (m, w)).2.1 := by
  cases op with
  | support t copierFor =>
    refine ⟨⟨.names, .same id, fun _ hfrees => hfrees⟩, h.supportWith copierFor, fun other => ?_⟩
    change (m.constructors.insert t _).contains other = true ↔ _
    rw [FiniteMap.contains, FiniteMap.get?_insert]
    by_cases ht : t = other
    · subst ht
      rw [if_pos rfl]
      exact iff_of_true rfl (.inr ⟨copierFor, rfl⟩)
    · rw [if_neg ht]
      refine (or_iff_left ?_).symm
      rintro ⟨copierFor', heq⟩
      exact ht (Operation.support.inj heq).1
  | create t name config =>
    rw [run, Action.snd_run_map, snd_run_createCache]
    obtain ⟨hb, hconstructors⟩ := becomes_createErased h name ⟨t, config⟩ w
    exact .of_manager h (fun _ _ heq => by cases heq) hb (fun _ hfrees => hfrees) hconstructors
  | plain op =>
    obtain ⟨hb, hconstructors⟩ := becomes_runPlain h op w
    exact .of_manager h (fun _ _ heq => by cases heq) hb (fun _ hfrees => hfrees) hconstructors

structure Ready (m : Equipped ω) : Prop where
  tidy : m.manager.Tidy
  sound : m.Sound

/-- An open manager has a cache of some types under a name. -/
structure Holds (m : Equipped ω) (t : EntryTypes) (name : String) (id : CacheId) : Prop where
  isOpen : m.manager.closed = false
  held : m.manager.held.get? name = some id
  cache : ∃ c, m.manager.cacheAt? id = some c ∧ c.types = t

namespace Becomes

variable {op : Operation ω β}

theorem ready (hb : m.Becomes op m') (h : m.Ready) : m'.Ready := by
  obtain ⟨done, hdone, -⟩ := hb.manager
  exact ⟨(hdone.reaches h.tidy).tidy, hb.sound⟩

theorem holds (hb : m.Becomes op m') (h : m.Ready) (hop : ¬op.Frees name)
    (hholds : m.Holds t name id) : m'.Holds t name id := by
  obtain ⟨done, hdone, hfrees⟩ := hb.manager
  have hdone' : ¬done.Frees name := fun hfree => hop (hfrees name hfree)
  obtain ⟨c, hc, rfl⟩ := hholds.cache
  obtain ⟨c', hc', hlater⟩ := (hdone.reaches h.tidy).later.caches hc
  refine ⟨Bool.eq_false_iff.2 fun hclosed => ?_, hdone.held hdone' hholds.held, c', hc',
    hlater.types⟩
  rw [hdone.closed_iff, hholds.isOpen] at hclosed
  exact hclosed.elim nofun (Manager.Becomes.not_shuts hdone')

end Becomes

namespace Operation

theorem ready_runAll (ops : List (Operation ω β)) {s : Equipped ω × ω} (h : s.1.Ready) :
    (runAll ops s).2.1.Ready := by
  induction ops generalizing s with
  | nil => exact h
  | cons op ops ih => exact ih ((op.becomes h.sound s.2).ready h)

theorem holds_runAll (ops : List (Operation ω β)) {s : Equipped ω × ω} (h : s.1.Ready)
    (hops : ∀ op ∈ ops, ¬op.Frees name) (hholds : s.1.Holds t name id) :
      (runAll ops s).2.1.Holds t name id := by
  induction ops generalizing s with
  | nil => exact hholds
  | cons op ops ih =>
    obtain ⟨hop, hops⟩ := List.forall_mem_cons.1 hops
    have hb := op.becomes h.sound s.2
    exact ih (hb.ready h) hops (hb.holds h hop hholds)

theorem constructors_runAll (ops : List (Operation ω β)) {s : Equipped ω × ω} (h : s.1.Ready)
    (t : EntryTypes) :
    (runAll ops s).2.1.constructors.contains t = true ↔
      s.1.constructors.contains t = true ∨ ∃ copierFor, Operation.support t copierFor ∈ ops := by
  induction ops generalizing s with
  | nil => exact (or_iff_left fun ⟨_, hop⟩ => List.not_mem_nil hop).symm
  | cons op ops ih =>
    have hb := op.becomes h.sound s.2
    refine (ih (hb.ready h)).trans ?_
    rw [hb.constructors, or_assoc]
    simp only [List.mem_cons, exists_or, eq_comm]

end Operation

/-- What lookups of a name come to if it leads to a cache of some types. -/
def LeadsTo (s : Equipped ω × ω) (t : EntryTypes) (name : String) (id : CacheId) : Prop :=
  (getCache t name).run s = (.ok (some id), s) ∧
    ∀ other, other ≠ t → (getCache other name).run s =
      (.error (.typeMismatch ("<" ++ other.key.name ++ ", " ++ other.value.name ++ ">")
        ("<" ++ t.key.name ++ ", " ++ t.value.name ++ ">")), s)

theorem run_getCache (h : m.manager.closed = false) (t : EntryTypes) (name : String) (w : ω) :
    (getCache t name).run (m, w) =
      match m.manager.find? name with
      | none => (.ok none, (m, w))
      | some (id, c) => if c.types = t then (.ok (some id), (m, w))
          else (.error (t.mismatch c.types), (m, w)) := by
  rw [getCache, run_onManager, Manager.run_getCache h]
  rcases m.manager.find? name with _ | ⟨id, c⟩
  · rfl
  · simp only
    split <;> rfl

theorem Holds.leadsTo (h : m.Holds t name id) (w : ω) : LeadsTo (m, w) t name id := by
  obtain ⟨c, hc, rfl⟩ := h.cache
  have hfound := Manager.find?_eq_some_iff.2 ⟨h.held, hc⟩
  constructor
  · rw [run_getCache h.isOpen, hfound]
    exact if_pos rfl
  · intro other hne
    rw [run_getCache h.isOpen, hfound]
    exact if_neg (Ne.symm hne)

theorem Ready.lookups (h : m.Ready) (hopen : m.manager.closed = false) (name : String) (w : ω) :
    if m.manager.held.contains name then ∃ t id, LeadsTo (m, w) t name id
    else ∀ t, (getCache t name).run (m, w) = (.ok none, (m, w)) := by
  rw [FiniteMap.contains]
  cases hheld : m.manager.held.get? name with
  | none =>
    have hnone : m.manager.find? name = none := Option.bind_eq_none_iff.2 fun id hid => by
      rw [hheld] at hid
      cases hid
    intro t
    rw [run_getCache hopen, hnone]
  | some id =>
    obtain ⟨c, hc, -⟩ := h.tidy.held hheld
    exact ⟨c.types, id, Holds.leadsTo ⟨hopen, hheld, c, hc, rfl⟩ w⟩

theorem ready_new (uri : String) (scope : ScopeId) (properties : Properties) :
    (Equipped.new uri scope properties : Equipped ω).Ready :=
  ⟨Manager.tidy_new uri scope properties, sound_equip _⟩

/-- Whether types are supported after a run: each manager starts with some. -/
def Supported (t : EntryTypes) (ops : List (Operation ω β)) : Prop :=
  t.supported = true ∨ ∃ copierFor, Operation.support t copierFor ∈ ops

theorem supported_iff (uri : String) (scope : ScopeId) (properties : Properties) (w : ω)
    (ops : List (Operation ω β)) (t : EntryTypes) :
    (Operation.runAll ops (Equipped.new uri scope properties, w)).2.1.constructors.contains t = true
      ↔ Supported t ops := by
  have hnew : (Equipped.new uri scope properties : Equipped ω).constructors.contains t =
      t.supported := by
    rw [Equipped.new, FiniteMap.contains, constructor?_equip]
    cases t.supported <;> rfl
  rw [Operation.constructors_runAll ops (ready_new uri scope properties), hnew]
  rfl

theorem Ready.holds_createCache (h : m.Ready) (hopen : m.manager.closed = false)
    (hname : m.manager.held.contains name = false) (ht : m.constructors.contains t = true)
    (config : t.Configuration ω) (w : ω) : let made := (createCache t name config).run (m, w)
    ∃ id, made.1 = .ok id ∧ m.manager.cacheAt? id = none ∧ made.2.1.Ready ∧
      made.2.1.Holds t name id := by
  intro made
  obtain ⟨make, hmake⟩ := Option.isSome_iff_exists.1 ht
  obtain ⟨copierFor, rfl⟩ := h.sound hmake
  have hready := ((Operation.create t name config : Operation ω Unit).becomes h.sound w).ready h
  rw [Operation.run, Action.snd_run_map] at hready
  have hrun : made = _ := run_createCache_of_constructor hopen hname hmake config w
  change made.2.1.Ready at hready
  rw [hrun] at hready ⊢
  refine ⟨_, rfl, List.getElem?_eq_none (Nat.le_refl _), hready, hopen,
    FiniteMap.get?_insert_self .., ?_⟩
  exact ⟨_, List.getElem?_concat_length, rfl⟩

/-- In every state that an open manager can come to, a cache is made if, and only if, its name is
free and its types are supported; otherwise nothing changes, and the name is what is looked at
first. The cache is found under its name, with its types and no others, until the name is given
up. The names that are held are listed in order, each once. -/
theorem createCache_runAll (uri : String) (scope : ScopeId) (properties : Properties) (w : ω)
    (ops : List (Operation ω β)) (t : EntryTypes) (name : String) (config : t.Configuration ω) :
    let s := (Operation.runAll ops (Equipped.new uri scope properties, w)).2
    let held := s.1.manager.held
    let made := (createCache t name config).run s
    s.1.manager.closed = false →
      (held.contains name = true →
        made = (.error (.cache ("A cache named " ++ name ++ " already exists")), s)) ∧
      (held.contains name = false → ¬Supported t ops →
        made = (.error (.unsupported
          ("caches of " ++ ("<" ++ t.key.name ++ ", " ++ t.value.name ++ ">"))), s)) ∧
      (held.contains name = false → Supported t ops →
        ∃ id, made.1 = .ok id ∧ s.1.manager.cacheAt? id = none ∧
          ∀ more : List (Operation ω β), (∀ op ∈ more, ¬op.Frees name) →
            LeadsTo (Operation.runAll more made.2).2 t name id) ∧
      (∀ other, if held.contains other then ∃ t id, LeadsTo s t other id
        else ∀ t, (getCache t other).run s = (.ok none, s)) ∧
      ∃ ns, cacheNames.run s = (.ok ns, s) ∧ ns.Pairwise (· < ·) ∧ ∀ n, n ∈ ns ↔
        held.contains n = true := by
  intro s held made hopen
  have hready : s.1.Ready := Operation.ready_runAll ops (ready_new uri scope properties)
  have hsupported : s.1.constructors.contains t = true ↔ Supported t ops :=
    supported_iff uri scope properties w ops t
  refine ⟨fun hname => run_createCache_of_held hopen hname config s.2, fun hname ht => ?_,
    fun hname ht => ?_,
    fun other => hready.lookups hopen other s.2, s.1.manager.names, ?_, s.1.manager.pairwise_names,
    fun n => Manager.mem_names⟩
  · rw [← hsupported, Bool.not_eq_true, FiniteMap.contains, Option.isSome_eq_false_iff,
      Option.isNone_iff_eq_none] at ht
    exact run_createCache_of_unsupported hopen hname ht config s.2
  · obtain ⟨id, hid, hnew, hnext, hholds⟩ :=
      hready.holds_createCache hopen hname (hsupported.2 ht) config s.2
    exact ⟨id, hid, hnew, fun more hmore =>
      (Operation.holds_runAll more hnext hmore hholds).leadsTo _⟩
  · rw [cacheNames, run_onManager, Manager.run_cacheNames hopen]

theorem createCache_runAll_words :
    let words : EntryTypes := ⟨.word, .word⟩
    let ops : List (Operation Unit Unit) :=
      [.create ⟨.text, .text⟩ "c" (.new 0), .support words .byReference]
    let s := (Operation.runAll ops (Equipped.new "m" 0 [], ())).2
    let made := (createCache words "d" (.new 0)).run s
    s.1.manager.closed = false ∧ made.1 = .ok 1 ∧ LeadsTo made.2 words "d" 1 ∧
      (createCache ⟨.word, .integer⟩ "c" (.new 0)).run s =
        (.error (.cache "A cache named c already exists"), s) ∧
      (createCache ⟨.word, .integer⟩ "d" (.new 0)).run s =
        (.error (.unsupported "caches of <u64, i32>"), s) := by
  intro words ops s made
  have hnot : ¬Supported ⟨.word, .integer⟩ ops := by
    rintro (hnever | ⟨copierFor, hop⟩)
    · cases hnever
    · rcases List.mem_cons.1 hop with heq | hop
      · cases heq
      · have htypes : (⟨.word, .integer⟩ : EntryTypes) = words :=
          (Operation.support.inj (List.mem_singleton.1 hop)).1
        exact absurd htypes (by decide)
  obtain ⟨id, hid, -, hleads⟩ :=
    (createCache_runAll "m" 0 [] () ops words "d" (.new 0) rfl).2.2.1 rfl
    (.inr ⟨.byReference, List.mem_cons_of_mem _ List.mem_cons_self⟩)
  obtain rfl : id = 1 := (Except.ok.inj hid).symm
  exact ⟨rfl, hid, hleads [] (List.forall_mem_nil _),
    (createCache_runAll "m" 0 [] () ops ⟨.word, .integer⟩ "c" (.new 0) rfl).1 rfl,
    (createCache_runAll "m" 0 [] () ops ⟨.word, .integer⟩ "d" (.new 0) rfl).2.1 rfl hnot⟩

end EntryCache.Equipped

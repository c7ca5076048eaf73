import EntryCache.Method.Resolver
import EntryCache.Proofs.Manager.Typed
import EntryCache.Proofs.Method.Changing

namespace EntryCache

variable {ω σ τ : Type}

inductive Wanted : Type
  | results (v : ValueType)
  | exceptions

/-- What a descriptor names for the results of its method, or for the failures that it keeps. -/
inductive Names (d : MethodDetails) : Wanted → EntryTypes → String → Prop
  | results (v : ValueType) : Names d (.results v) ⟨.key, v⟩ d.cacheName
  | exceptions {r : ResultDescriptor} {name : String} (hd : d.descriptor = .result r)
    (hname : r.exceptionCacheName = some name) (hne : name ≠ "") :
    Names d .exceptions ⟨.key, .failure⟩ name

inductive Asked (τ : Type) : Type
  | looked (r : Except Error (Option τ))
  | made (r : Except Error τ)

namespace CacheSource

def ask (s : CacheSource σ τ) (d : MethodDetails) : Wanted → Action σ τ
  | .results v => s.resolve v d
  | .exceptions => s.resolveExceptions d

def noted (s : CacheSource σ τ) : CacheSource (σ × List (Asked τ)) τ where
  find t name := (s.find t name).noting .looked
  make t name := (s.make t name).noting .made

section

variable {s : CacheSource σ τ} {t : EntryTypes} {name : String} {x y z : σ} {c : τ} {e : Error}

theorem run_getOrCreate_of_failed (hfind : (s.find t name).run x = (.error e, y)) :
    (s.getOrCreate t name).run x = (.error e, y) := Action.run_bind_of_error hfind

theorem run_getOrCreate_of_found (hfind : (s.find t name).run x = (.ok (some c), y)) :
    (s.getOrCreate t name).run x = (.ok c, y) := Action.run_bind_of_ok hfind

theorem run_getOrCreate_of_made (hfind : (s.find t name).run x = (.ok none, y))
    (hmake : (s.make t name).run y = (.ok c, z)) : (s.getOrCreate t name).run x = (.ok c, z) := by
  have hattempt : (s.make t name).attempt.run y = (.ok (.ok c), z) := by
    rw [Action.run_attempt, hmake]
  exact (Action.run_bind_of_ok hfind).trans (Action.run_bind_of_ok hattempt)

theorem run_getOrCreate_of_refused (hfind : (s.find t name).run x = (.ok none, y))
    (hmake : (s.make t name).run y = (.error e, z)) (he : e.kind ≠ .plain .cache) :
    (s.getOrCreate t name).run x = (.error e, z) := by
  have hattempt : (s.make t name).attempt.run y = (.ok (.error e), z) := by
    rw [Action.run_attempt, hmake]
  refine (Action.run_bind_of_ok hfind).trans ((Action.run_bind_of_ok hattempt).trans ?_)
  split
  · next heq => cases heq
  · next heq =>
    cases heq
    exact absurd rfl he
  · next heq =>
    cases heq
    rfl

theorem run_getOrCreate_congr {s' : CacheSource σ τ} (hfind : s.find t name = s'.find t name)
    (hmake : ∀ y, (s.find t name).run x = (.ok none, y) → (s.make t name).run y =
      (s'.make t name).run y) :
    (s.getOrCreate t name).run x = (s'.getOrCreate t name).run x := by
  rw [getOrCreate, getOrCreate, ← hfind, Action.run_bind, Action.run_bind]
  rcases hrun : (s.find t name).run x with ⟨e | _ | c, y⟩
  · rfl
  · simp only [Action.run_bind, Action.run_attempt, hmake y hrun]
  · rfl

end

theorem ask_of_names {d : MethodDetails} {x : Wanted} {t : EntryTypes} {name : String}
    (h : Names d x t name) (s : CacheSource σ τ) : s.ask d x = s.getOrCreate t name := by
  cases h with
  | results v => rfl
  | exceptions hd hname hne =>
    have hgiven : d.exceptionCacheName = some name := by
      simp [MethodDetails.exceptionCacheName, hd, properName, hname, hne]
    rw [ask, resolveExceptions, hgiven]

theorem ask_of_unnamed {d : MethodDetails} {x : Wanted} (h : ∀ t name, ¬Names d x t name)
    (s : CacheSource σ τ) :
    s.ask d x = .fail (.descriptor (d.methodName ++ " does not declare an exception cache")) := by
  cases x with
  | results v => exact absurd (.results v) (h _ _)
  | exceptions =>
    have hnone : d.exceptionCacheName = none := by
      rw [MethodDetails.exceptionCacheName]
      split
      · next r hd =>
        refine Option.filter_eq_none_iff.2 fun name hname hne => h _ name (.exceptions hd hname ?_)
        simpa using hne
      · rfl
    rw [ask, resolveExceptions, hnone]

structure Answers (s : CacheSource σ τ) (d : MethodDetails) (x : Wanted) (a : σ)
    (r : Except Error τ) (b : σ) (log : List (Asked τ)) : Prop where
  run : (s.ask d x).run a = (r, b)
  noted : (s.noted.ask d x).run (a, []) = (r, (b, log))

namespace Answers

variable {s : CacheSource σ τ} {d : MethodDetails} {x : Wanted} {t : EntryTypes} {name : String}
  {a b b' : σ} {c : τ}
  {e : Error}

theorem unnamed (h : ∀ t name, ¬Names d x t name) (s : CacheSource σ τ) (a : σ) :
    s.Answers d x a (.error (.descriptor (d.methodName ++ " does not declare an exception cache")))
      a [] where
  run := by
    rw [ask_of_unnamed h]
    rfl
  noted := by
    rw [ask_of_unnamed h]
    rfl

theorem failed (h : Names d x t name) (hfind : (s.find t name).run a = (.error e, b)) :
    s.Answers d x a (.error e) b [.looked (.error e)] where
  run := by rw [ask_of_names h, run_getOrCreate_of_failed hfind]
  noted := by
    rw [ask_of_names h, run_getOrCreate_of_failed (Action.run_noting hfind _ []), List.nil_append]

theorem found (h : Names d x t name) (hfind : (s.find t name).run a = (.ok (some c), b)) :
    s.Answers d x a (.ok c) b [.looked (.ok (some c))] where
  run := by rw [ask_of_names h, run_getOrCreate_of_found hfind]
  noted := by
    rw [ask_of_names h, run_getOrCreate_of_found (Action.run_noting hfind _ []), List.nil_append]

theorem made (h : Names d x t name) (hfind : (s.find t name).run a = (.ok none, b))
    (hmake : (s.make t name).run b = (.ok c, b')) :
    s.Answers d x a (.ok c) b' [.looked (.ok none), .made (.ok c)] where
  run := by rw [ask_of_names h, run_getOrCreate_of_made hfind hmake]
  noted := by
    rw [ask_of_names h, run_getOrCreate_of_made (Action.run_noting hfind _ [])
      (Action.run_noting hmake _ _)]
    rfl

theorem refused (h : Names d x t name) (hfind : (s.find t name).run a = (.ok none, b))
    (hmake : (s.make t name).run b = (.error e, b')) (he : e.kind ≠ .plain .cache) :
    s.Answers d x a (.error e) b' [.looked (.ok none), .made (.error e)] where
  run := by rw [ask_of_names h, run_getOrCreate_of_refused hfind hmake he]
  noted := by
    rw [ask_of_names h, run_getOrCreate_of_refused (Action.run_noting hfind _ [])
      (Action.run_noting hmake _ _) he]
    rfl

end Answers

end CacheSource

namespace Equipped

def freshCache {ω : Type} (t : EntryTypes) (name : String) (id : Nat)
    (copierFor : CopierFor ω t) : AnyCache ω :=
  ⟨t, name, .new id, copierFor (.new id), none, none, ∅, [], default, false⟩

/-- The answer of an equipped manager that is asked for a cache, what it becomes, and the calls that
it gets. There is no second search for a name that was free. -/
inductive Resolution {ω : Type} (supported : EntryTypes → Prop) (id : Nat) (d : MethodDetails)
    (x : Wanted) (m : Equipped ω) : Except Error CacheId → Equipped ω → List (Asked CacheId) → Prop
  | unnamed (hnames : ∀ t name, ¬Names d x t name) :
    Resolution supported id d x m (.error
      (.descriptor (d.methodName ++ " does not declare an exception cache"))) m []
  | closed {t name} (hnames : Names d x t name) (hm : m.manager.closed = true) :
    Resolution supported id d x m
      (.error (.illegalState ("CacheManager " ++ m.manager.uri ++ " is closed"))) m
      [.looked (.error (.illegalState ("CacheManager " ++ m.manager.uri ++ " is closed")))]
  | mismatched {t name i c} (hnames : Names d x t name) (hm : m.manager.closed = false)
    (hf : m.manager.find? name = some (i, c)) (ht : c.types ≠ t) {asked held : String}
    (hasked : asked = "<" ++ t.key.name ++ ", " ++ t.value.name ++ ">")
    (hheld : held = "<" ++ c.types.key.name ++ ", " ++ c.types.value.name ++ ">") :
    Resolution supported id d x m (.error (.typeMismatch asked held)) m
      [.looked (.error (.typeMismatch asked held))]
  | found {t name i c} (hnames : Names d x t name) (hm : m.manager.closed = false)
    (hf : m.manager.find? name = some (i, c)) (ht : c.types = t) :
    Resolution supported id d x m (.ok i) m [.looked (.ok (some i))]
  | unsupported {t name} (hnames : Names d x t name) (hm : m.manager.closed = false)
    (hfree : m.manager.held.contains name = false) (ht : ¬supported t) {asked : String}
    (hasked : asked = "<" ++ t.key.name ++ ", " ++ t.value.name ++ ">") :
    Resolution supported id d x m (.error (.unsupported ("caches of " ++ asked))) m
      [.looked (.ok none), .made (.error (.unsupported ("caches of " ++ asked)))]
  | made {t name copierFor} (hnames : Names d x t name) (hm : m.manager.closed = false)
    (hfree : m.manager.held.contains name = false) (ht : supported t)
    (hmake : m.constructors.get? t = some (.of t copierFor)) :
    Resolution supported id d x m (.ok m.manager.created.length)
      { m with manager := m.manager.holding name (freshCache t name id copierFor) }
      [.looked (.ok none), .made (.ok m.manager.created.length)]

variable {ω β : Type} {m m' : Equipped ω} {t : EntryTypes} {name : String} {i : CacheId}
  {supported : EntryTypes → Prop}
  {id : Nat} {d : MethodDetails} {x : Wanted} {r : Except Error CacheId}
    {log : List (Asked CacheId)}

namespace Resolution

theorem holds (h : Resolution supported id d x m (.ok i) m' log) :
    ∃ t name, Names d x t name ∧ m'.Holds t name i := by
  cases h with
  | found hnames hm hf ht =>
    obtain ⟨hheld, hc⟩ := Manager.find?_eq_some_iff.1 hf
    exact ⟨_, _, hnames, hm, hheld, _, hc, ht⟩
  | made hnames hm hfree ht hmake =>
    exact ⟨_, _, hnames, hm, FiniteMap.get?_insert_self .., _, List.getElem?_concat_length, rfl⟩

theorem eq_of_error {e : Error} (h : Resolution supported id d x m (.error e) m' log) : m' = m := by
  cases h <;> rfl

theorem ready (h : Resolution supported id d x m r m' log) (hready : m.Ready) : m'.Ready := by
  cases h with
  | made hnames hm hfree ht hmake =>
      exact ⟨(hready.tidy.reaches_insert hm hfree rfl).tidy, hready.sound⟩
  | _ => exact hready

theorem cacheAt? {j : CacheId} {c : AnyCache ω} (h : Resolution supported id d x m r m' log)
    (hc : m.manager.cacheAt? j = some c) : m'.manager.cacheAt? j = some c := by
  cases h with
  | made hnames hm hfree ht hmake => exact getElem?_snoc_of_some hc _
  | _ => exact hc

theorem unraced {e : Error} (h : Resolution supported id d x m r m' log)
    (he : Asked.made (.error e) ∈ log) : e.kind ≠ .plain .cache := by
  cases h with
  | unsupported hnames hm hfree ht =>
    obtain heq | heq := List.mem_pair.1 he
    · cases heq
    · cases heq
      nofun
  | _ => simp at he

theorem held {other : String} (h : Resolution supported id d x m r m' log)
    (hother : ∀ t, ¬Names d x t other) :
    m'.manager.held.get? other = m.manager.held.get? other := by
  cases h with
  | @made t name _ hnames hm hfree ht hmake =>
    refine FiniteMap.get?_insert_of_ne ?_
    rintro rfl
    exact hother t hnames
  | _ => rfl

end Resolution

theorem getCache_of_closed (h : m.manager.closed = true) (t : EntryTypes) (name : String) (w : ω) :
    (getCache t name).run (m, w) = (.error (Manager.closedError m.manager.uri), (m, w)) := by
  have hrefused : Manager.Refuses (m.manager, w) (Manager.getCache t name) :=
    (Manager.refuses_lookup (s := (m.manager, w)) h name).bind _
  rw [getCache, run_onManager, hrefused]

theorem Ready.answers_of_free (h : m.Ready)
    (hsupported : ∀ t, m.constructors.contains t = true ↔ supported t)
    (hnames : Names d x t name) (hm : m.manager.closed = false) (hf : m.manager.find? name = none)
    (id : Nat) (w : ω) : ∃ r m' log, (CacheSource.ofEquipped id).Answers d x (m, w) r (m', w) log ∧
      Resolution supported id d x m r m' log := by
  have hfind : ((CacheSource.ofEquipped id).find t name).run (m, w) = (.ok none, (m, w)) :=
    (run_getCache hm t name w).trans (by rw [hf])
  have hfree := h.tidy.contains hf
  cases hmake : m.constructors.get? t with
  | none =>
    have hcreate := run_createCache_of_unsupported hm hfree hmake (.new id) w
    refine ⟨_, _, _, .refused hnames hfind hcreate nofun,
      .unsupported hnames hm hfree (fun ht => ?_) rfl⟩
    rw [← hsupported, FiniteMap.contains, hmake] at ht
    cases ht
  | some make =>
    obtain ⟨copierFor, rfl⟩ := h.sound hmake
    have hcreate := run_createCache_of_constructor hm hfree hmake (.new id) w
    refine ⟨_, _, _, .made hnames hfind hcreate, .made hnames hm hfree ((hsupported t).1 ?_) hmake⟩
    rw [FiniteMap.contains, hmake]
    rfl

theorem Ready.answers (h : m.Ready)
    (hsupported : ∀ t, m.constructors.contains t = true ↔ supported t) (id : Nat)
    (d : MethodDetails) (x : Wanted) (w : ω) :
    ∃ r m' log, (CacheSource.ofEquipped id).Answers d x (m, w) r (m', w) log ∧
      Resolution supported id d x m r m' log := by
  by_cases hnamed : ∃ t name, Names d x t name
  · obtain ⟨t, name, hnames⟩ := hnamed
    cases hm : m.manager.closed with
    | true => exact ⟨_, _, _, .failed hnames (getCache_of_closed hm t name w), .closed hnames hm⟩
    | false =>
      cases hf : m.manager.find? name with
      | none => exact h.answers_of_free hsupported hnames hm hf id w
      | some found =>
        obtain ⟨i, c⟩ := found
        have hfind : ((CacheSource.ofEquipped id).find t name).run (m, w) = _ :=
          run_getCache hm t name w
        rw [hf] at hfind
        by_cases ht : c.types = t
        · exact ⟨_, _, _, .found hnames (hfind.trans (if_pos ht)), .found hnames hm hf ht⟩
        · exact ⟨_, _, _, .failed hnames (hfind.trans (if_neg ht)),
            .mismatched hnames hm hf ht rfl rfl⟩
  · have hnone : ∀ t name, ¬Names d x t name := fun t name hnames => hnamed ⟨t, name, hnames⟩
    exact ⟨_, _, _, .unnamed hnone _ _, .unnamed hnone⟩

theorem LeadsTo.answers {s : Equipped ω × ω} (h : LeadsTo s t name i) (hnames : Names d x t name)
    (id : Nat) : (CacheSource.ofEquipped id).Answers d x s (.ok i) s [.looked (.ok (some i))] :=
  .found hnames h.1

/-- In every state that a manager can come to, asking for a cache comes to what the table of
resolutions says of it. A refusal changes nothing; a cache that is answered is the one that its
name leads to, and the answer when it is asked for again, until the name is given up. No other
cache and no other name is touched, and no race for a name is lost. -/
theorem ask_runAll (uri : String) (scope : ScopeId) (properties : Properties) (w : ω)
    (ops : List (Operation ω β)) (id : Nat) (d : MethodDetails) (x : Wanted) :
    let source : CacheSource (Equipped ω × ω) CacheId := .ofEquipped id
    let s := (Operation.runAll ops (Equipped.new uri scope properties, w)).2
    ∃ r m' log, source.Answers d x s r (m', s.2) log ∧
      Resolution (Supported · ops) id d x s.1 r m' log ∧
      (∀ e, r = .error e → m' = s.1) ∧
      (∀ i, r = .ok i → ∃ t name, Names d x t name ∧
        ∀ more : List (Operation ω β), (∀ op ∈ more, ¬op.Frees name) →
          let s' := (Operation.runAll more (m', s.2)).2
          LeadsTo s' t name i ∧ source.Answers d x s' (.ok i) s' [.looked (.ok (some i))]) ∧
      (∀ j c, s.1.manager.cacheAt? j = some c → m'.manager.cacheAt? j = some c) ∧
      (∀ other, (∀ t, ¬Names d x t other) → m'.manager.held.get? other =
        s.1.manager.held.get? other) ∧
      ∀ e, .made (.error e) ∈ log → e.kind ≠ .plain .cache := by
  intro source s
  have hready : s.1.Ready := Operation.ready_runAll ops (ready_new uri scope properties)
  obtain ⟨r, m', log, hanswers, hresolution⟩ :=
    hready.answers (supported_iff uri scope properties w ops) id d x s.2
  refine ⟨r, m', log, hanswers, hresolution, ?_, ?_, fun _ _ => hresolution.cacheAt?,
    fun _ => hresolution.held,
    fun _ => hresolution.unraced⟩
  · rintro e rfl
    exact hresolution.eq_of_error
  · rintro i rfl
    obtain ⟨t, name, hnames, hholds⟩ := hresolution.holds
    refine ⟨t, name, hnames, fun more hmore => ?_⟩
    have hleads :=
      (Operation.holds_runAll more (s := (m', s.2)) (hresolution.ready hready) hmore hholds).leadsTo
      (Operation.runAll more (m', s.2)).2.2
    exact ⟨hleads, hleads.answers hnames id⟩

theorem ask_runAll_taken :
    let ops : List (Operation Unit Unit) := [.create ⟨.text, .text⟩ "taken" (.new 0)]
    let s := (Operation.runAll ops (Equipped.new "m" 0 [], ())).2
    let d : MethodDetails := ⟨"method", "free", .result ⟨none, false, some "taken", none⟩⟩
    let mismatch : Error := .typeMismatch
      "<cache_api::annotation::DefaultCacheKey, cache_api::error::Error>"
      "<alloc::string::String, alloc::string::String>"
    (∃ m', ((CacheSource.ofEquipped 0).ask d (.results .word)).run s = (.ok 1, (m', ())) ∧
      LeadsTo (m', ()) ⟨.key, .word⟩ "free" 1) ∧
      ((CacheSource.ofEquipped 0).ask d .exceptions).run s = (.error mismatch, s) := by
  intro ops s d mismatch
  constructor
  · obtain ⟨r, m', log, hanswers, -, -, hok, -⟩ := ask_runAll "m" 0 [] () ops 0 d (.results .word)
    obtain rfl : .ok 1 = r := congrArg Prod.fst hanswers.run
    obtain ⟨t, name, hnames, hleads⟩ := hok 1 rfl
    cases hnames
    exact ⟨m', hanswers.run, (hleads [] (List.forall_mem_nil _)).1⟩
  · obtain ⟨r, m', log, hanswers, -, herror, -⟩ := ask_runAll "m" 0 [] () ops 0 d .exceptions
    obtain rfl : .error mismatch = r := congrArg Prod.fst hanswers.run
    obtain rfl := herror mismatch rfl
    exact hanswers.run

theorem onManager_bind {γ : Type} (a : Manager.Op ω β) (f : β → Manager.Op ω γ) :
    onManager (a >>= f) = onManager a >>= fun y => onManager (f y) := by
  funext s
  change (onManager (a >>= f)).run s = (onManager a >>= fun y => onManager (f y)).run s
  rw [Action.run_bind, run_onManager, run_onManager, Action.run_bind]
  rcases a.run (s.1.manager, s.2) with ⟨e | y, s'⟩ <;> rfl

theorem run_createCache_equip (m : Manager ω) (t : EntryTypes) (name : String)
    (config : t.Configuration ω) (w : ω) : (createCache t name config).run (equip m, w) =
      (onManager (Manager.createCache name ⟨t, config⟩)).run (equip m, w) := by
  rw [← run_createErased_equip, Action.run_map]
  rcases createErased_cases (sound_equip m) name ⟨t, config⟩ w with ⟨e, hrun⟩
    | ⟨c, w', -, -, ht, -, hrun⟩
  · rw [hrun]
    exact Action.run_bind_of_error hrun
  · rw [hrun]
    refine (Action.run_bind_of_ok hrun).trans (Action.run_bind_of_ok (x := ()) ?_)
    rw [AnyCache.run_discard_typed, if_pos ht]

theorem snd_run_getCache (t : EntryTypes) (name : String) (s : Equipped ω × ω) :
    ((getCache t name).run s).2 = s := by
  have hleaves : ((Manager.getCache t name).run (s.1.manager, s.2)).2 = (s.1.manager, s.2) :=
    Manager.getCache_leaves t name _
  rw [getCache, run_onManager, hleaves]

theorem onManager_getOrCreate (source : CacheSource (Manager ω × ω) CacheId) (t : EntryTypes)
    (name : String) : let lifted : CacheSource (Equipped ω × ω) CacheId :=
      ⟨fun t name => onManager (source.find t name), fun t name => onManager (source.make t name)⟩
    onManager (source.getOrCreate t name) = lifted.getOrCreate t name := by
  intro lifted
  rw [CacheSource.getOrCreate, CacheSource.getOrCreate, onManager_bind]
  refine congrArg (onManager (source.find t name) >>= ·) (funext fun found => ?_)
  cases found with
  | some c => rfl
  | none =>
    refine (onManager_bind ..).trans
      (congrArg ((lifted.make t name).attempt >>= ·) (funext fun made => ?_))
    split
    · rfl
    · refine (onManager_bind ..).trans
        (congrArg (lifted.find t name >>= ·) (funext fun again => ?_))
      cases again <;> rfl
    · rfl

theorem run_getOrCreate_equip (m : Manager ω) (id : Nat) (t : EntryTypes) (name : String) (w : ω) :
    ((CacheSource.ofEquipped id).getOrCreate t name).run (equip m, w) =
      (onManager ((CacheSource.ofManager id).getOrCreate t name)).run (equip m, w) := by
  rw [onManager_getOrCreate]
  refine CacheSource.run_getOrCreate_congr rfl fun y hfind => ?_
  obtain rfl : (equip m, w) = y :=
    (snd_run_getCache t name (equip m, w)).symm.trans (congrArg Prod.snd hfind)
  exact run_createCache_equip m t name (.new id) w

end Equipped

end EntryCache

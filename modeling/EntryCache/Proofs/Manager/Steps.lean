import EntryCache.Proofs.Manager.Holding

namespace EntryCache.Manager

variable {ω β γ : Type} {m m' : Manager ω}

def Operation.Shuts : Operation ω β → Prop
  | .close => True
  | _ => False

/-- Whether an operation gives up a name, if the manager has it. -/
def Operation.Frees (name : String) : Operation ω β → Prop
  | .destroy other => other = name
  | .close => True
  | _ => False

inductive Becomes (m : Manager ω) : Operation ω β → Manager ω → Prop
  | same {op} (hop : ¬op.Shuts) : Becomes m op m
  | changed {op id c c'} (hop : ¬op.Shuts) (hc : m.cacheAt? id = some c) (hl : c.Later c') :
    Becomes m op (m.setCache id c')
  | made {name config c} (hopen : m.closed = false) (hname : m.held.contains name = false)
    (hc : c.name = name) : Becomes m (.create name config) (m.holding name c)
  | givenUp {name id c c'} (hf : m.find? name = some (id, c)) (hl : c.Later c')
    (hc' : c'.closed = true) : Becomes m (.destroy name) (m.without name id c')
  | closed : Becomes m .close m.close

namespace Becomes

variable {op : Operation ω β}

theorem of_leaves (hop : ¬op.Shuts) {a : Op ω γ} (ha : a.Leaves id) (w : ω) :
    m.Becomes op (a.run (m, w)).2.1 := by
  have hsame : (a.run (m, w)).2 = (m, w) := ha (m, w)
  rw [hsame]
  exact .same hop

theorem of_refused (hop : ¬op.Shuts) {w : ω} {a : Op ω γ} (ha : Refuses (m, w) a) :
    m.Becomes op (a.run (m, w)).2.1 := by
  rw [ha]
  exact .same hop

theorem createCache (name : String) (config : AnyConfiguration ω) (w : ω) :
    m.Becomes (.create name config : Operation ω β) ((createCache name config).run (m, w)).2.1 := by
  cases hm : m.closed with
  | true => exact .of_refused id ((refuses_ensureOpen hm).bind _)
  | false =>
    rw [run_createCache hm]
    cases hname : m.held.contains name with
    | true => exact .same id
    | false =>
      cases config.types.supported with
      | true => exact .made hm hname (AnyCache.later_create name config w).1
      | false => exact .same id

theorem destroyCache (name : String) (w : ω) :
    m.Becomes (.destroy name : Operation ω β) ((destroyCache name).run (m, w)).2.1 := by
  cases hm : m.closed with
  | true => exact .of_refused id ((refuses_ensureOpen hm).bind _)
  | false =>
    rw [run_destroyCache hm]
    rcases hf : m.find? name with _ | ⟨i, c⟩
    · exact .same id
    · simp only
      cases hc : c.closed with
      | true => exact .givenUp hf (.refl c) hc
      | false => exact .givenUp hf ⟨rfl, rfl, fun _ => rfl⟩ rfl

theorem clearCache (name : String) (w : ω) :
    m.Becomes (.clear name : Operation ω β) ((clearCache name).run (m, w)).2.1 := by
  cases hm : m.closed with
  | true => exact .of_refused id ((refuses_lookup hm name).bind _)
  | false =>
    rw [run_clearCache hm]
    rcases hf : m.find? name with _ | ⟨i, c⟩
    · exact .same id
    · exact .changed id (find?_eq_some_iff.1 hf).2 (c.later_clear w)

theorem closeHeld (name : String) (w : ω) :
    m.Becomes (.closeHeld name : Operation ω β) ((Manager.closeHeld name).run (m, w)).2.1 := by
  cases hm : m.closed with
  | true => exact .of_refused id ((refuses_lookup hm name).bind _)
  | false =>
    rw [run_closeHeld hm]
    rcases hf : m.find? name with _ | ⟨i, c⟩
    · exact .same id
    · exact .changed id (find?_eq_some_iff.1 hf).2 (.close c)

end Becomes

theorem Operation.becomes (op : Operation ω β) (m : Manager ω) (w : ω) :
    m.Becomes op (op.run.run (m, w)).2.1 := by
  cases op with
  | onCache i op =>
    rw [run_onCache]
    cases hc : m.cacheAt? i with
    | none => exact .same id
    | some c => exact .changed id hc (AnyCache.later_run op c w)
  | create name config =>
    rw [run, Action.snd_run_map]
    exact .createCache name config w
  | lookup name =>
    rw [run, Action.snd_run_map]
    exact .of_leaves id (lookup_leaves name) w
  | get t name =>
    rw [run, Action.snd_run_map]
    exact .of_leaves id (getCache_leaves t name) w
  | names =>
    rw [run, Action.snd_run_map]
    exact .of_leaves id cacheNames_leaves w
  | destroy name =>
    rw [run, Action.snd_run_map]
    exact .destroyCache name w
  | clear name =>
    rw [run, Action.snd_run_map]
    exact .clearCache name w
  | closeHeld name =>
    rw [run, Action.snd_run_map]
    exact .closeHeld name w
  | enableManagement name enabled =>
    rw [run, Action.snd_run_map]
    exact .of_leaves id ensureOpen_leaves w
  | enableStatistics name enabled =>
    rw [run, Action.snd_run_map]
    exact .of_leaves id ensureOpen_leaves w
  | close =>
    rw [run, Action.snd_run_map]
    exact .closed

namespace Becomes

variable {op : Operation ω β}

theorem reaches (hb : m.Becomes op m') (h : m.Tidy) : m.Reaches m' := by
  cases hb with
  | same _ => exact h.reaches_self
  | changed _ hc hl => exact h.reaches_setCache hc hl
  | made hopen hname hc => exact h.reaches_insert hopen hname hc
  | givenUp hf hl hc' => exact h.reaches_without hf hl hc'
  | closed => exact h.reaches_close

theorem properties (hb : m.Becomes op m') : m'.properties = m.properties := by
  cases hb with
  | closed => exact properties_close m
  | _ => rfl

theorem closed_iff (hb : m.Becomes op m') : m'.closed = true ↔ m.closed = true ∨ op.Shuts := by
  cases hb with
  | same hop => exact (or_iff_left hop).symm
  | changed hop _ _ => exact (or_iff_left hop).symm
  | made _ _ _ => exact (or_iff_left id).symm
  | givenUp _ _ _ => exact (or_iff_left id).symm
  | closed => exact iff_of_true (closed_close m) (.inr trivial)

theorem not_shuts {name : String} (hop : ¬op.Frees name) : ¬op.Shuts := by
  cases op with
  | close => exact fun _ => hop trivial
  | _ => exact id

theorem held (hb : m.Becomes op m') {name : String} (hop : ¬op.Frees name) {id : CacheId}
    (hheld : m.held.get? name = some id) : m'.held.get? name = some id := by
  cases hb with
  | same _ => exact hheld
  | changed _ _ _ => exact hheld
  | made hopen hname hc =>
    refine (FiniteMap.get?_insert_of_ne ?_).trans hheld
    rintro rfl
    rw [FiniteMap.contains, hheld] at hname
    cases hname
  | givenUp _ _ _ => exact (FiniteMap.get?_erase_of_ne hop).trans hheld
  | closed => exact absurd trivial hop

end Becomes

theorem cacheAt?_of_created {name : String} {config : AnyConfiguration ω} {w : ω} {i : CacheId}
    (h : ((createCache name config).run (m, w)).1 = .ok i) :
    ∃ c, ((createCache name config).run (m, w)).2.1.cacheAt? i = some c ∧ c.name = name := by
  cases hm : m.closed with
  | true =>
    have hrefused : Refuses (m, w) (createCache name config) := (refuses_ensureOpen hm).bind _
    rw [hrefused] at h
    cases h
  | false =>
    rw [run_createCache hm] at h ⊢
    split at h
    · cases h
    · split at h
      · next hnew hsupported =>
        obtain rfl := Except.ok.inj h
        rw [if_neg hnew, if_pos hsupported]
        exact ⟨_, List.getElem?_concat_length, (AnyCache.later_create name config w).1⟩
      · cases h

namespace Operation

/-- Whatever is done with a manager and its caches, what it made is still there, and none of it is
lost open. -/
theorem reaches (op : Operation ω β) (h : m.Tidy) (w : ω) : m.Reaches (op.run.run (m, w)).2.1 :=
  (op.becomes m w).reaches h

theorem reaches_runAll (ops : List (Operation ω β)) {s : Manager ω × ω} (h : s.1.Tidy) :
    s.1.Reaches (runAll ops s).2.1 := by
  induction ops generalizing s with
  | nil => exact h.reaches_self
  | cons op ops ih =>
    have hop := op.reaches h s.2
    exact hop.trans (ih hop.tidy)

end Operation

end EntryCache.Manager

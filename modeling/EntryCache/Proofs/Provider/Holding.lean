import EntryCache.Proofs.Manager.Steps
import EntryCache.Proofs.Provider.Runs

namespace EntryCache.Provider

variable {ω β : Type} {p p' p'' : Provider ω} {id : ManagerId} {m m' : Manager ω}
  {key : ScopeId × String}

structure Tidy (p : Provider ω) : Prop where
  managers : ∀ {id m}, p.managerAt? id = some m → m.Tidy
  held : ∀ {key id}, p.held.get? key = some id → ∃ m, p.managerAt? id = some m ∧
    (m.scope, m.uri) = key
  kept : ∀ {id m}, p.managerAt? id = some m → m.closed = true ∨
    p.held.get? (m.scope, m.uri) = some id

def Later (p p' : Provider ω) :
    Prop := ∀ id m, p.managerAt? id = some m → ∃ m', p'.managerAt? id = some m' ∧ m.Later m'

theorem Later.refl (p : Provider ω) : p.Later p := fun _ m hm => ⟨m, hm, .refl m⟩

theorem Later.trans (h : p.Later p') (h' : p'.Later p'') : p.Later p'' := fun id m hm => by
  obtain ⟨m', hm', hl⟩ := h id m hm
  obtain ⟨m'', hm'', hl'⟩ := h' id m' hm'
  exact ⟨m'', hm'', hl.trans hl'⟩

theorem tidy_new (shared : Bool) : (Provider.new shared : Provider ω).Tidy where
  managers := nofun
  held := nofun
  kept := nofun

structure Reaches (p p' : Provider ω) : Prop where
  later : p.Later p'
  tidy : p'.Tidy

theorem Reaches.trans (h : p.Reaches p') (h' : p'.Reaches p'') :
    p.Reaches p'' := ⟨h.later.trans h'.later, h'.tidy⟩

theorem Tidy.reaches_self (h : p.Tidy) : p.Reaches p := ⟨.refl p, h⟩

theorem managerAt?_setManager (hm : p.managerAt? id = some m) (m' : Manager ω) (other : ManagerId) :
    (p.setManager id m').managerAt? other = if id = other then some m' else p.managerAt? other :=
  getElem?_set_of_some hm m' other

theorem Later.setManager (hm : p.managerAt? id = some m) (hl : m.Later m') :
    p.Later (p.setManager id m') := by
  intro other n hn
  rw [managerAt?_setManager hm]
  split
  · next heq =>
    subst heq
    obtain rfl := Option.some.inj (hm.symm.trans hn)
    exact ⟨m', rfl, hl⟩
  · exact ⟨n, hn, .refl n⟩

theorem Tidy.setManager (h : p.Tidy) (hm : p.managerAt? id = some m) (hl : m.Later m')
    (ht : m'.Tidy) : (p.setManager id m').Tidy where
  managers {other n} hn := by
    rw [managerAt?_setManager hm] at hn
    split at hn
    · exact Option.some.inj hn ▸ ht
    · exact h.managers hn
  held {key other} hheld := by
    obtain ⟨n, hn, rfl⟩ := h.held hheld
    obtain ⟨n', hn', hl'⟩ := Later.setManager hm hl other n hn
    exact ⟨n', hn', by rw [hl'.scope, hl'.uri]⟩
  kept {other n} hn := by
    rw [managerAt?_setManager hm] at hn
    split at hn
    · next heq =>
      subst heq
      obtain rfl := Option.some.inj hn
      rw [hl.scope, hl.uri]
      exact (h.kept hm).imp_left hl.closed
    · exact h.kept hn

theorem Tidy.reaches_setManager (h : p.Tidy) (hm : p.managerAt? id = some m) (hr : m.Reaches m') :
    p.Reaches (p.setManager id m') := ⟨.setManager hm hr.later, h.setManager hm hr.later hr.tidy⟩

theorem openManager?_of_held (hheld : p.held.get? key = some id) (hm : p.managerAt? id = some m)
    (hopen : m.closed = false) : p.openManager? key = some id := by
  change (p.held.get? key).bind _ = _
  rw [hheld]
  change (p.managerAt? id).bind _ = _
  rw [hm]
  change (if m.closed then none else some id) = _
  rw [hopen]
  rfl

theorem Tidy.openManager?_eq_some_iff (h : p.Tidy) :
    p.openManager? key = some id ↔ ∃ m, p.managerAt? id = some m ∧ (m.scope, m.uri) = key ∧
      m.closed = false := by
  constructor
  · intro hfound
    obtain ⟨i, hheld, hfound⟩ := Option.bind_eq_some_iff.1 hfound
    obtain ⟨m, hm, hfound⟩ := Option.bind_eq_some_iff.1 hfound
    obtain ⟨n, hn, hkey⟩ := h.held hheld
    obtain rfl := Option.some.inj (hm.symm.trans hn)
    split at hfound
    · cases hfound
    · next hopen =>
      obtain rfl := Option.some.inj hfound
      exact ⟨m, hm, hkey, Bool.eq_false_iff.2 hopen⟩
  · rintro ⟨m, hm, rfl, hopen⟩
    have hheld := (h.kept hm).resolve_left (by rw [hopen]; exact Bool.false_ne_true)
    exact openManager?_of_held hheld hm hopen

theorem managerAt?_making_new (p : Provider ω) (m : Manager ω) :
    (p.making m).managerAt? p.managers.length = some m := List.getElem?_concat_length

theorem managerAt?_making (hm : p.managerAt? id = some m) (m' : Manager ω) :
    (p.making m').managerAt? id = some m := getElem?_snoc_of_some hm m'

theorem Tidy.reaches_making (h : p.Tidy) (hm : m.Tidy)
    (hnone : p.openManager? (m.scope, m.uri) = none) : p.Reaches (p.making m) := by
  refine ⟨fun id n hn => ⟨n, managerAt?_making hn m, .refl n⟩, ?_, ?_, ?_⟩
  · intro id n hn
    rcases getElem?_snoc hn with hn | ⟨rfl, rfl⟩
    · exact h.managers hn
    · exact hm
  · intro key id hheld
    change (p.held.insert (m.scope, m.uri) p.managers.length).get? key = some id at hheld
    rw [FiniteMap.get?_insert] at hheld
    split at hheld
    · next heq =>
      obtain rfl := Option.some.inj hheld
      exact ⟨m, managerAt?_making_new p m, heq⟩
    · obtain ⟨n, hn, hkey⟩ := h.held hheld
      exact ⟨n, managerAt?_making hn m, hkey⟩
  · intro id n hn
    change _ ∨ (p.held.insert (m.scope, m.uri) p.managers.length).get? (n.scope, n.uri) = some id
    rw [FiniteMap.get?_insert]
    rcases getElem?_snoc hn with hn | ⟨rfl, rfl⟩
    · split
      · next heq =>
        refine .inl (Bool.of_not_eq_false fun hopen => ?_)
        rw [h.openManager?_eq_some_iff.2 ⟨n, hn, heq.symm, hopen⟩] at hnone
        cases hnone
      · exact h.kept hn
    · exact .inr (if_pos rfl)

theorem Tidy.managerAt?_of_answered (h : p.Tidy) {context : ScopeId} {uri : Option String}
    {scope : Option ScopeId} {properties : Option Properties}
    (hid : ((cacheManager context uri scope properties).run p).1 = .ok id) :
    ∃ m, ((cacheManager context uri scope properties).run p).2.managerAt? id = some m ∧
      (m.scope, m.uri) = (scope.getD context, uri.getD defaultUri) := by
  rw [run_cacheManager] at hid ⊢
  cases hfound : p.openManager? (scope.getD context, uri.getD defaultUri) with
  | some j =>
    rw [hfound] at hid
    obtain rfl := Except.ok.inj hid
    obtain ⟨m, hm, hkey, -⟩ := h.openManager?_eq_some_iff.1 hfound
    exact ⟨m, hm, hkey⟩
  | none =>
    rw [hfound] at hid
    simp only at hid ⊢
    split at hid
    · next hshared =>
      obtain rfl := Except.ok.inj hid
      rw [if_pos hshared]
      exact ⟨_, List.getElem?_concat_length, rfl⟩
    · cases hid

theorem foldl_closeAt (qs : List ((ScopeId × String) × ManagerId)) (p : Provider ω) :
    qs.foldl (fun p q => { p.closeAt q.2 with held := p.held.erase q.1 }) p =
      { p with
        managers := modifyEach Manager.close (qs.map Prod.snd) p.managers
        held := (qs.map Prod.fst).foldl FiniteMap.erase p.held } := by
  induction qs generalizing p with
  | nil => rfl
  | cons q qs ih => exact ih _

def chosen (p : Provider ω) (which : ScopeId × String → Bool) :
    List ((ScopeId × String) × ManagerId) :=
  p.held.toList.filter fun q => which q.1

theorem mem_chosen {which : ScopeId × String → Bool} :
    (key, id) ∈ p.chosen which ↔ p.held.get? key = some id ∧ which key = true := by
  rw [chosen, List.mem_filter, FiniteMap.mem_toList_iff]

theorem held_closeHeld (p : Provider ω) (which : ScopeId × String → Bool) (key : ScopeId × String) :
    (p.closeHeld which).held.get? key = if which key then none else p.held.get? key := by
  rw [closeHeld, foldl_closeAt]
  change ((p.chosen which).map Prod.fst |>.foldl FiniteMap.erase p.held).get? key = _
  rw [FiniteMap.get?_eraseEach]
  cases hheld : p.held.get? key with
  | none => rw [ite_self, ite_self]
  | some id =>
    have hmem : key ∈ (p.chosen which).map Prod.fst ↔ which key = true := by
      rw [List.mem_map]
      constructor
      · rintro ⟨⟨key, i⟩, hq, rfl⟩
        exact (mem_chosen.1 hq).2
      · intro hkey
        exact ⟨(key, id), mem_chosen.2 ⟨hheld, hkey⟩, rfl⟩
    simp only [hmem]

theorem Tidy.managerAt?_closeHeld (h : p.Tidy) (which : ScopeId × String → Bool) (id : ManagerId) :
    (p.closeHeld which).managerAt? id =
      (p.managerAt? id).map fun m => if which (m.scope, m.uri) then m.close else m := by
  rw [closeHeld, foldl_closeAt, managerAt?, getElem?_modifyEach Manager.close_close]
  change (p.managerAt? id).map (fun m => if id ∈ (p.chosen which).map Prod.snd then
    m.close else m) = _
  cases hm : p.managerAt? id with
  | none => rfl
  | some m =>
    rw [Option.map_some, Option.map_some]
    cases hwhich : which (m.scope, m.uri) with
    | true =>
      rcases h.kept hm with hclosed | hheld
      · rw [Manager.close_of_closed hclosed, ite_self, ite_self]
      · rw [if_pos (List.mem_map.2 ⟨_, mem_chosen.2 ⟨hheld, hwhich⟩, rfl⟩)]
        rfl
    | false =>
      refine congrArg some (if_neg fun hmem => ?_)
      obtain ⟨⟨key, i⟩, hq, rfl⟩ := List.mem_map.1 hmem
      obtain ⟨hheld, hkey⟩ := mem_chosen.1 hq
      obtain ⟨n, hn, rfl⟩ := h.held hheld
      obtain rfl := Option.some.inj (hm.symm.trans hn)
      rw [hwhich] at hkey
      cases hkey

theorem Tidy.managerAt?_closeHeld_of_some (h : p.Tidy) (which : ScopeId × String → Bool)
    (hm : p.managerAt? id = some m) :
    (p.closeHeld which).managerAt? id = some (if which (m.scope, m.uri) then m.close else m) := by
  rw [h.managerAt?_closeHeld, hm]
  rfl

theorem Later.closeHeld (h : p.Tidy) (which : ScopeId × String → Bool) :
    p.Later (p.closeHeld which) := by
  intro id m hm
  refine ⟨_, h.managerAt?_closeHeld_of_some which hm, ?_⟩
  split
  · exact .close (h.managers hm)
  · exact .refl m

theorem Tidy.closeHeld (h : p.Tidy) (which : ScopeId × String → Bool) :
    (p.closeHeld which).Tidy where
  managers {id m} hm := by
    rw [h.managerAt?_closeHeld] at hm
    obtain ⟨n, hn, rfl⟩ := Option.map_eq_some_iff.1 hm
    split
    · exact (h.managers hn).close
    · exact h.managers hn
  held {key id} hheld := by
    rw [held_closeHeld] at hheld
    split at hheld
    · cases hheld
    · next hkey =>
      obtain ⟨n, hn, rfl⟩ := h.held hheld
      refine ⟨n, ?_, rfl⟩
      rw [h.managerAt?_closeHeld, hn, Option.map_some, if_neg hkey]
  kept {id m} hm := by
    rw [h.managerAt?_closeHeld] at hm
    obtain ⟨n, hn, rfl⟩ := Option.map_eq_some_iff.1 hm
    split
    · exact .inl (h.managers hn).shut_close.closed
    · next hkey =>
      rw [held_closeHeld, if_neg hkey]
      exact h.kept hn

theorem Tidy.reaches_closeHeld (h : p.Tidy) (which : ScopeId × String → Bool) :
    p.Reaches (p.closeHeld which) :=
  ⟨.closeHeld h which, h.closeHeld which⟩

end EntryCache.Provider

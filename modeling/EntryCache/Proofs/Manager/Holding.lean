import EntryCache.Proofs.Arena
import EntryCache.Proofs.Cache.Lasting
import EntryCache.Proofs.Manager.Runs

namespace EntryCache

namespace AnyCache

variable {ω β : Type} {c c' c'' : AnyCache ω}

structure Later (c c' : AnyCache ω) : Prop where
  types : c'.types = c.types
  name : c'.name = c.name
  closed : c.closed = true → c'.closed = true

namespace Later

theorem refl (c : AnyCache ω) : c.Later c := ⟨rfl, rfl, id⟩

theorem trans (h : c.Later c') (h' : c'.Later c'') : c.Later c'' :=
  ⟨h'.types.trans h.types, h'.name.trans h.name, fun hc => h'.closed (h.closed hc)⟩

theorem close (c : AnyCache ω) : c.Later c.close := ⟨rfl, rfl, fun _ => rfl⟩

end Later

theorem close_of_closed (h : c.closed = true) : c.close = c := by
  obtain ⟨t, c⟩ := c
  have hc : c.closed = true := h
  change AnyCache.mk t { c with closed := true } = ⟨t, c⟩
  rw [← hc]

theorem later_run (op : (t : EntryTypes) → Cache.Operation ω t.key.Carrier t.value.Carrier β)
    (c : AnyCache ω) (w : ω) : c.Later (AnyCache.run (Manager.runCache op) (c, w)).2.1 := by
  have hlater := (op c.types).later_run (c.cache, w)
  exact ⟨rfl, hlater.name, hlater.closed⟩

theorem later_clear (c : AnyCache ω) (w : ω) : c.Later (clear (c, w)).2.1 := by
  have hclear := c.run_clear w
  rw [Action.run] at hclear
  rw [hclear]
  split
  · exact .refl c
  · exact ⟨rfl, rfl, id⟩

theorem later_create (name : String) (config : AnyConfiguration ω) (w : ω) :
    (create name config w).1.name = name ∧ (create name config w).1.closed = false :=
  Cache.later_create ..

end AnyCache

namespace Manager

variable {ω β : Type} {m m' m'' : Manager ω} {id : CacheId} {c c' : AnyCache ω}

structure Tidy (m : Manager ω) : Prop where
  held : ∀ {name id}, m.held.get? name = some id → ∃ c, m.cacheAt? id = some c ∧ c.name = name
  kept : ∀ {id c}, m.cacheAt? id = some c → c.closed = true ∨ m.held.get? c.name = some id
  letGo : m.closed = true → ∀ name, m.held.get? name = none

structure Later (m m' : Manager ω) : Prop where
  uri : m'.uri = m.uri
  scope : m'.scope = m.scope
  closed : m.closed = true → m'.closed = true
  caches : ∀ {id c}, m.cacheAt? id = some c → ∃ c', m'.cacheAt? id = some c' ∧ c.Later c'

structure Shut (m : Manager ω) : Prop where
  closed : m.closed = true
  caches : ∀ {id c}, m.cacheAt? id = some c → c.closed = true

namespace Later

theorem refl (m : Manager ω) : m.Later m := ⟨rfl, rfl, fun h => h, fun h => ⟨_, h, .refl _⟩⟩

theorem trans (h : m.Later m') (h' : m'.Later m'') : m.Later m'' where
  uri := h'.uri.trans h.uri
  scope := h'.scope.trans h.scope
  closed hc := h'.closed (h.closed hc)
  caches hc := by
    obtain ⟨c', hc', hl⟩ := h.caches hc
    obtain ⟨c'', hc'', hl'⟩ := h'.caches hc'
    exact ⟨c'', hc'', hl.trans hl'⟩

end Later

theorem tidy_new (uri : String) (scope : ScopeId) (properties : Properties) :
    (Manager.new uri scope properties : Manager ω).Tidy where
  held := nofun
  kept := nofun
  letGo := nofun

theorem Tidy.shut (h : m.Tidy) (hm : m.closed = true) : m.Shut where
  closed := hm
  caches hc := (h.kept hc).resolve_right fun hheld => by
    rw [h.letGo hm] at hheld
    cases hheld

theorem find?_eq_some_iff {name : String} :
    m.find? name = some (id, c) ↔ m.held.get? name = some id ∧ m.cacheAt? id = some c := by
  constructor
  · intro hf
    obtain ⟨i, hheld, hf⟩ := Option.bind_eq_some_iff.1 hf
    obtain ⟨d, hd, hf⟩ := Option.bind_eq_some_iff.1 hf
    obtain ⟨rfl, rfl⟩ := Prod.mk.inj (Option.some.inj hf)
    exact ⟨hheld, hd⟩
  · rintro ⟨hheld, hc⟩
    exact Option.bind_eq_some_iff.2 ⟨id, hheld, Option.bind_eq_some_iff.2 ⟨c, hc, rfl⟩⟩

theorem Tidy.find? (h : m.Tidy) {name : String} (hf : m.find? name = some (id, c)) :
    m.held.get? name = some id ∧ m.cacheAt? id = some c ∧ c.name = name := by
  obtain ⟨hheld, hc⟩ := find?_eq_some_iff.1 hf
  obtain ⟨d, hd, hname⟩ := h.held hheld
  obtain rfl := Option.some.inj (hc.symm.trans hd)
  exact ⟨hheld, hc, hname⟩

theorem cacheAt?_setCache (hc : m.cacheAt? id = some c) (c' : AnyCache ω) (other : CacheId) :
    (m.setCache id c').cacheAt? other = if id = other then some c' else m.cacheAt? other :=
  getElem?_set_of_some hc c' other

theorem Later.setCache (hc : m.cacheAt? id = some c) (hl : c.Later c') :
    m.Later (m.setCache id c') where
  uri := rfl
  scope := rfl
  closed := fun h => h
  caches {other d} hd := by
    rw [cacheAt?_setCache hc]
    split
    · next heq =>
      subst heq
      obtain rfl := Option.some.inj (hc.symm.trans hd)
      exact ⟨c', rfl, hl⟩
    · exact ⟨d, hd, .refl d⟩

theorem Tidy.setCache (h : m.Tidy) (hc : m.cacheAt? id = some c) (hl : c.Later c') :
    (m.setCache id c').Tidy where
  held hname := by
    obtain ⟨d, hd, rfl⟩ := h.held hname
    obtain ⟨d', hd', hl'⟩ := (Later.setCache hc hl).caches hd
    exact ⟨d', hd', hl'.name⟩
  kept {other d} hd := by
    rw [cacheAt?_setCache hc] at hd
    split at hd
    · next heq =>
      subst heq
      obtain rfl := Option.some.inj hd
      rw [hl.name]
      exact (h.kept hc).imp_left hl.closed
    · exact h.kept hd
  letGo := h.letGo

theorem foldl_closeCache (ps : List (String × CacheId)) (m : Manager ω) :
    ps.foldl (fun m p => m.closeCache p.2) m =
      { m with created := modifyEach AnyCache.close (ps.map Prod.snd) m.created } := by
  induction ps generalizing m with
  | nil => rfl
  | cons p ps ih => exact ih _

theorem close_of_closed (h : m.closed = true) : m.close = m := if_pos h

theorem close_of_open (h : m.closed = false) :
    m.close =
      { m with
        created := modifyEach AnyCache.close (m.held.toList.map Prod.snd) m.created
        held := ∅
        closed := true } := by
  rw [close, if_neg (by rw [h]; exact Bool.false_ne_true), foldl_closeCache]

theorem close_close (m : Manager ω) : m.close.close = m.close := by
  cases hm : m.closed with
  | true => rw [close_of_closed hm, close_of_closed hm]
  | false => exact close_of_closed (by rw [close_of_open hm])

theorem uri_close (m : Manager ω) : m.close.uri = m.uri := by
  cases hm : m.closed with
  | true => rw [close_of_closed hm]
  | false => rw [close_of_open hm]

theorem scope_close (m : Manager ω) : m.close.scope = m.scope := by
  cases hm : m.closed with
  | true => rw [close_of_closed hm]
  | false => rw [close_of_open hm]

theorem properties_close (m : Manager ω) : m.close.properties = m.properties := by
  cases hm : m.closed with
  | true => rw [close_of_closed hm]
  | false => rw [close_of_open hm]

theorem closed_close (m : Manager ω) : m.close.closed = true := by
  cases hm : m.closed with
  | true => rwa [close_of_closed hm]
  | false => rw [close_of_open hm]

theorem Tidy.cacheAt?_close (h : m.Tidy) (id : CacheId) :
    m.close.cacheAt? id = (m.cacheAt? id).map AnyCache.close := by
  cases hm : m.closed with
  | true =>
    rw [close_of_closed hm]
    cases hc : m.cacheAt? id with
    | none => rfl
    | some c => rw [Option.map_some, AnyCache.close_of_closed ((h.shut hm).caches hc)]
  | false =>
    rw [close_of_open hm, cacheAt?, getElem?_modifyEach fun c => AnyCache.close_of_closed
      (rfl : c.close.closed = true)]
    change (m.cacheAt? id).map _ = _
    cases hc : m.cacheAt? id with
    | none => rfl
    | some c =>
      rw [Option.map_some, Option.map_some]
      rcases h.kept hc with hclosed | hheld
      · rw [AnyCache.close_of_closed hclosed, ite_self]
      · rw [if_pos (List.mem_map.2 ⟨_, FiniteMap.mem_toList_iff.2 hheld, rfl⟩)]

theorem Later.close (h : m.Tidy) : m.Later m.close where
  uri := uri_close m
  scope := scope_close m
  closed hm := by rwa [close_of_closed hm]
  caches {id c} hc := by
    rw [h.cacheAt?_close, hc]
    exact ⟨c.close, rfl, .close c⟩

theorem Tidy.shut_close (h : m.Tidy) : m.close.Shut where
  closed := closed_close m
  caches hc := by
    rw [h.cacheAt?_close] at hc
    obtain ⟨c, -, rfl⟩ := Option.map_eq_some_iff.1 hc
    rfl

theorem Tidy.close (h : m.Tidy) : m.close.Tidy where
  held {name id} hheld := by
    cases hm : m.closed with
    | true =>
      rw [close_of_closed hm] at hheld ⊢
      exact h.held hheld
    | false =>
      rw [close_of_open hm] at hheld
      cases hheld
  kept hc := .inl (h.shut_close.caches hc)
  letGo _ name := by
    cases hm : m.closed with
    | true =>
      rw [close_of_closed hm]
      exact h.letGo hm name
    | false => rw [close_of_open hm, FiniteMap.get?_empty]

structure Reaches (m m' : Manager ω) : Prop where
  later : m.Later m'
  tidy : m'.Tidy

theorem Reaches.trans (h : m.Reaches m') (h' : m'.Reaches m'') :
    m.Reaches m'' := ⟨h.later.trans h'.later, h'.tidy⟩

namespace Tidy

theorem reaches_self (h : m.Tidy) : m.Reaches m := ⟨.refl m, h⟩

theorem reaches_setCache (h : m.Tidy) (hc : m.cacheAt? id = some c) (hl : c.Later c') :
    m.Reaches (m.setCache id c') := ⟨.setCache hc hl, h.setCache hc hl⟩

theorem reaches_close (h : m.Tidy) : m.Reaches m.close := ⟨.close h, h.close⟩

theorem reaches_insert (h : m.Tidy) (hopen : m.closed = false) {name : String}
    (hname : m.held.contains name = false) (hc : c.name = name) : m.Reaches (m.holding name c) := by
  have hnew : (m.holding name c).cacheAt? m.created.length = some c := List.getElem?_concat_length
  have hold : ∀ {id d}, m.cacheAt? id = some d → (m.holding name c).cacheAt? id = some d :=
    fun hd => getElem?_snoc_of_some hd c
  have hnot : m.held.get? name = none := by
    rwa [FiniteMap.contains, Option.isSome_eq_false_iff, Option.isNone_iff_eq_none] at hname
  refine ⟨⟨rfl, rfl, fun hm => hm, fun hd => ⟨_, hold hd, .refl _⟩⟩, ?_, ?_, ?_⟩
  · intro other id hheld
    change (m.held.insert name m.created.length).get? other = some id at hheld
    rw [FiniteMap.get?_insert] at hheld
    split at hheld
    · next heq =>
      obtain rfl := Option.some.inj hheld
      exact ⟨c, hnew, hc.trans heq⟩
    · obtain ⟨d, hd, hdname⟩ := h.held hheld
      exact ⟨d, hold hd, hdname⟩
  · intro id d hd
    change _ ∨ (m.held.insert name m.created.length).get? d.name = some id
    rw [FiniteMap.get?_insert]
    rcases getElem?_snoc hd with hd | ⟨rfl, rfl⟩
    · refine (h.kept hd).imp_right fun hheld => ?_
      rw [if_neg fun heq => ?_, hheld]
      rw [heq, hheld] at hnot
      cases hnot
    · exact .inr (if_pos hc.symm)
  · intro hm
    change m.closed = true at hm
    rw [hopen] at hm
    cases hm

theorem reaches_without (h : m.Tidy) {name : String} (hf : m.find? name = some (id, c))
    (hl : c.Later c') (hc' : c'.closed = true) : m.Reaches (m.without name id c') := by
  obtain ⟨hheld, hc, hname⟩ := h.find? hf
  have hset := h.reaches_setCache hc hl
  refine ⟨⟨rfl, rfl, fun hm => hm, hset.later.caches⟩, ?_, ?_, ?_⟩
  · intro other i hother
    change (m.held.erase name).get? other = some i at hother
    rw [FiniteMap.get?_erase] at hother
    split at hother
    · cases hother
    · exact hset.tidy.held hother
  · intro other d hd
    change d.closed = true ∨ (m.held.erase name).get? d.name = some other
    have hkept := hset.tidy.kept (show (m.setCache id c').cacheAt? other = some d from hd)
    by_cases heq : name = d.name
    · subst heq
      refine .inl (hkept.elim (fun hclosed => hclosed) fun hkept => ?_)
      obtain rfl : id = other := Option.some.inj (hheld.symm.trans hkept)
      change (m.setCache id c').cacheAt? id = some d at hd
      rw [cacheAt?_setCache hc, if_pos rfl] at hd
      exact Option.some.inj hd ▸ hc'
    · rwa [FiniteMap.get?_erase_of_ne heq]
  · intro hm other
    change (m.held.erase name).get? other = none
    rw [FiniteMap.get?_erase, h.letGo hm other, ite_self]

end Tidy

end Manager

end EntryCache

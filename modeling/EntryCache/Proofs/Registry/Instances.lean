import EntryCache.Proofs.Registry.Lookups
import Mathlib.Data.List.Flatten

namespace EntryCache.Registry

variable {ι π ω : Type} {k : Workshop ι π ω} {made : ω → π → Prop} {closed : ω → List π}
  {s t : Registry ι π × ω}
  {scope : ScopeId} {name : String} {new gone : List (String × π)}

structure Sound (made : ω → π → Prop) (closed : ω → List π) (s : Registry ι π × ω) : Prop where
  names : ∀ a, ((s.1.held a).map Prod.fst).Nodup
  instances : ∀ a, ((s.1.held a).map Prod.snd).Nodup
  apart : ∀ {a b p q}, p ∈ s.1.held a → q ∈ s.1.held b → p.2 = q.2 → a = b
  existing : ∀ {a q}, q ∈ s.1.held a → made s.2 q.2
  known : ∀ {a q}, q ∈ s.1.held a → a < s.1.scopes.made.length
  closedOnce : (closed s.2).Nodup
  closedMade : ∀ p ∈ closed s.2, made s.2 p
  closedGone : ∀ {a q}, q ∈ s.1.held a → q.2 ∉ closed s.2

structure Withdraws (made : ω → π → Prop) (closed : ω → List π) (gone : List (String × π))
    (s s' : Registry ι π × ω) : Prop where
  scopes : s'.1.scopes = s.1.scopes
  held : ∀ a, (s'.1.held a).Sublist (s.1.held a)
  distinct : (gone.map Prod.snd).Nodup
  taken : ∀ q ∈ gone, ∃ a, q ∈ s.1.held a
  released : ∀ {a q}, q ∈ s'.1.held a → q.2 ∉ gone.map Prod.snd
  existing : ∀ p, made s.2 p → made s'.2 p
  closed : closed s'.2 = closed s.2 ++ gone.map Prod.snd

namespace Sound

theorem of_held (h : Sound made closed s) (hw : t.2 = s.2) (hheld : t.1.held = s.1.held)
    (hmade : s.1.scopes.made.length ≤ t.1.scopes.made.length) : Sound made closed t where
  names a := by rw [hheld]; exact h.names a
  instances a := by rw [hheld]; exact h.instances a
  apart hp hq := by
    rw [hheld] at hp hq
    exact h.apart hp hq
  existing hq := by
    rw [hheld] at hq
    exact hw ▸ h.existing hq
  known hq := by
    rw [hheld] at hq
    exact Nat.lt_of_lt_of_le (h.known hq) hmade
  closedOnce := hw ▸ h.closedOnce
  closedMade := hw ▸ h.closedMade
  closedGone hq := by
    rw [hheld] at hq
    exact hw ▸ h.closedGone hq

theorem withdraws (h : Sound made closed s) (hs : Withdraws made closed gone s t) :
    Sound made closed t where
  names a := (h.names a).sublist ((hs.held a).map _)
  instances a := (h.instances a).sublist ((hs.held a).map _)
  apart hp hq := h.apart ((hs.held _).subset hp) ((hs.held _).subset hq)
  existing hq := hs.existing _ (h.existing ((hs.held _).subset hq))
  known hq := hs.scopes ▸ h.known ((hs.held _).subset hq)
  closedOnce := by
    rw [hs.closed]
    refine h.closedOnce.append hs.distinct fun p hp hgone => ?_
    obtain ⟨q, hq, rfl⟩ := List.mem_map.1 hgone
    obtain ⟨a, ha⟩ := hs.taken q hq
    exact h.closedGone ha hp
  closedMade p hp := by
    rw [hs.closed] at hp
    apply hs.existing
    rcases List.mem_append.1 hp with hp | hp
    · exact h.closedMade p hp
    · obtain ⟨q, hq, rfl⟩ := List.mem_map.1 hp
      obtain ⟨a, ha⟩ := hs.taken q hq
      exact h.existing ha
  closedGone hq hmem := by
    rw [hs.closed] at hmem
    rcases List.mem_append.1 hmem with hmem | hmem
    · exact h.closedGone ((hs.held _).subset hq) hmem
    · exact hs.released hq hmem

end Sound

theorem Grows.cases (h : Grows made closed scope new s t) {a : ScopeId} {q : String × π}
    (hq : q ∈ t.1.held a) : q ∈ s.1.held a ∨ a = scope ∧ q ∈ new := by
  rw [h.held, Function.update_apply] at hq
  split at hq
  · next ha =>
    subst ha
    exact (List.mem_append.1 hq).imp_right fun hq => ⟨rfl, hq⟩
  · exact .inl hq

theorem Grows.mem (h : Grows made closed scope new s t) {a : ScopeId} {q : String × π}
    (hq : q ∈ s.1.held a) :
    q ∈ t.1.held a := by
  rw [h.held, Function.update_apply]
  split
  · next ha => exact List.mem_append_left _ (ha ▸ hq)
  · exact hq

theorem Sound.grows (h : Sound made closed s) (hs : Grows made closed scope new s t) :
    Sound made closed t where
  names a := by
    rw [hs.held, Function.update_apply]
    split
    · exact hs.names (h.names scope)
    · exact h.names a
  instances a := by
    rw [hs.held, Function.update_apply]
    split
    · rw [List.map_append]
      refine (h.instances scope).append hs.instances fun p hp hnew => ?_
      obtain ⟨q, hq, rfl⟩ := List.mem_map.1 hp
      obtain ⟨q', hq', heq⟩ := List.mem_map.1 hnew
      exact (hs.fresh q' hq').1 (heq ▸ h.existing hq)
    · exact h.instances a
  apart hp hq heq := by
    rcases hs.cases hp with hp | ⟨rfl, hp⟩ <;> rcases hs.cases hq with hq | ⟨rfl, hq⟩
    · exact h.apart hp hq heq
    · exact absurd (heq ▸ h.existing hp) (hs.fresh _ hq).1
    · exact absurd (heq ▸ h.existing hq) (hs.fresh _ hp).1
    · rfl
  existing hq := by
    rcases hs.cases hq with hq | ⟨-, hq⟩
    · exact hs.world.made _ (h.existing hq)
    · exact (hs.fresh _ hq).2
  known hq := by
    rw [hs.scopes]
    rcases hs.cases hq with hq | ⟨rfl, hq⟩
    · exact h.known hq
    · exact hs.known (List.ne_nil_of_mem hq)
  closedOnce := hs.world.closed ▸ h.closedOnce
  closedMade p hp := hs.world.made _ (h.closedMade p (hs.world.closed ▸ hp))
  closedGone hq hmem := by
    rw [hs.world.closed] at hmem
    rcases hs.cases hq with hq | ⟨-, hq⟩
    · exact h.closedGone hq hmem
    · exact (hs.fresh _ hq).1 (h.closedMade _ hmem)

theorem closeEach_cons (close : π → Action ω Unit) (q : String × π)
    (ps : List (String × π)) (w : ω) :
    (closeEach close (q :: ps) w).2 = (closeEach close ps ((close q.2).run w).2).2 := by
  rw [closeEach]
  simp only
  rw [Action.run]
  cases (close q.2 w).1 <;> rfl

theorem closeEach_closed (h : k.Ledger made closed) (ps : List (String × π)) (w : ω) :
    closed (closeEach k.close ps w).2 = closed w ++ ps.map Prod.snd := by
  induction ps generalizing w with
  | nil => exact (List.append_nil _).symm
  | cons q ps ih =>
    obtain ⟨name, p⟩ := q
    have hp : closed ((k.close p).run w).2 = closed w ++ [p] := h.closes p w
    rw [closeEach_cons, ih, hp, List.append_assoc]
    rfl

theorem closeEach_keeps (h : k.Ledger made closed) (ps : List (String × π)) {w : ω} {p : π}
    (hp : made w p) : made (closeEach k.close ps w).2 p := by
  induction ps generalizing w with
  | nil => exact hp
  | cons q ps ih =>
    rw [closeEach_cons]
    exact ih (h.closeKeeps hp)

theorem run_closeProvider (name : String) (scope : ScopeId) (r : Registry ι π) (w : ω) :
    (closeProvider k.close name scope).run (r, w) =
      match (r.held scope).lookup name with
      | none => (.ok (), (r, w))
      | some p =>
        let closing := closeEach k.close [(name, p)] w
        (shutdown closing.1, (r.putBack scope (FiniteMap.drop name (r.held scope)),
          closing.2)) := by
  rw [closeProvider, Action.run_bind_of_ok (run_look _ _)]
  change (match (r.held scope).lookup name with | none => _ | some p => _ : Op ι π ω Unit).run
    (r, w) = _
  simp only
  cases (r.held scope).lookup name <;> rfl

theorem run_closeScope (scope : ScopeId) (r : Registry ι π) (w : ω) :
    (closeScope k.close scope).run (r, w) =
      let closing := closeEach k.close (r.held scope) w
      (shutdown closing.1, ({ r with table := r.table.erase scope }, closing.2)) := rfl

def everything (r : Registry ι π) : List (String × π) := r.table.toList.flatMap Prod.snd

theorem run_closeAll (r : Registry ι π) (w : ω) :
    (closeAll k.close).run (r, w) =
      let closing := closeEach k.close r.everything w
      (shutdown closing.1, ({ r with table := ∅ }, closing.2)) := rfl

theorem mem_everything {r : Registry ι π} {q : String × π} :
    q ∈ r.everything ↔ ∃ a, q ∈ r.held a := by
  rw [everything, List.mem_flatMap]
  constructor
  · rintro ⟨⟨a, ps⟩, hps, hq⟩
    refine ⟨a, ?_⟩
    rw [held, FiniteMap.mem_toList_iff.1 hps]
    exact hq
  · rintro ⟨a, hq⟩
    cases hget : r.table.get? a with
    | none =>
      rw [held, hget] at hq
      cases hq
    | some ps =>
      rw [held, hget] at hq
      exact ⟨(a, ps), FiniteMap.mem_toList_iff.2 hget, hq⟩

theorem Sound.nodup_everything (h : Sound made closed s) : (s.1.everything.map Prod.snd).Nodup := by
  have hheld : ∀ {a ps}, (a, ps) ∈ s.1.table.toList → ps = s.1.held a := fun hps => by
    rw [held, FiniteMap.mem_toList_iff.1 hps]
    rfl
  rw [everything, List.map_flatMap, List.nodup_flatMap]
  constructor
  · rintro ⟨a, ps⟩ hps
    obtain rfl := hheld hps
    exact h.instances a
  · refine (List.pairwise_map.1 s.1.table.nodup).imp_of_mem ?_
    rintro ⟨a, ps⟩ ⟨b, qs⟩ hps hqs hne x hx hx'
    obtain rfl := hheld hps
    obtain rfl := hheld hqs
    obtain ⟨p, hp, rfl⟩ := List.mem_map.1 hx
    obtain ⟨q, hq, heq⟩ := List.mem_map.1 hx'
    exact hne (h.apart hp hq heq.symm)

theorem Withdraws.refl : Withdraws made closed [] s s where
  scopes := rfl
  held _ := .refl _
  distinct := List.nodup_nil
  taken := nofun
  released _ := List.not_mem_nil
  existing _ hp := hp
  closed := (List.append_nil _).symm

theorem mem_of_mem_forget {r : Registry ι π} {a : ScopeId} {q : String × π}
    (hq : q ∈ r.forget.held a) : q ∈ r.held a := by
  rw [held_forget] at hq
  split at hq
  · exact hq
  · cases hq

theorem forget_withdraws (s : Registry ι π × ω) : Withdraws made closed [] s (s.1.forget, s.2) where
  scopes := rfl
  held a := by
    rw [held_forget]
    split
    · exact .refl _
    · exact List.nil_sublist _
  distinct := List.nodup_nil
  taken := nofun
  released _ := List.not_mem_nil
  existing _ hp := hp
  closed := (List.append_nil _).symm

theorem closeProvider_withdraws (h : k.Ledger made closed) (hs : Sound made closed s)
    (name : String) (scope : ScopeId) :
    ∃ gone, Withdraws made closed gone s ((closeProvider k.close name scope).run s).2 := by
  obtain ⟨r, w⟩ := s
  rw [run_closeProvider]
  cases hlookup : (r.held scope).lookup name with
  | none => exact ⟨[], .refl⟩
  | some p =>
    have hperm := FiniteMap.perm_cons_drop hlookup
    have hmem : (name, p) ∈ r.held scope := hperm.symm.subset List.mem_cons_self
    have hnodup := (hperm.map Prod.snd).nodup_iff.1 (hs.instances scope)
    refine ⟨[(name, p)], rfl, fun a => ?_, List.nodup_singleton _, ?_, ?_,
      fun _ => closeEach_keeps h _,
      closeEach_closed h _ w⟩
    · rw [held_putBack, Function.update_apply]
      split
      · next ha => exact ha ▸ FiniteMap.drop_sublist ..
      · exact .refl _
    · rintro q hq
      exact ⟨scope, List.mem_singleton.1 hq ▸ hmem⟩
    · rintro a q hq hgone
      have heq : q.2 = p := List.mem_singleton.1 hgone
      rw [held_putBack, Function.update_apply] at hq
      split at hq
      · rw [List.map_cons, List.nodup_cons] at hnodup
        exact hnodup.1 (List.mem_map.2 ⟨q, hq, heq⟩)
      · next ha => exact ha (hs.apart hq hmem heq)

theorem closeProvider_stays (name : String) (scope : ScopeId) (s : Registry ι π × ω) {a : ScopeId}
    {q : String × π} (hq : q ∈ s.1.held a) :
    q ∈ ((closeProvider k.close name scope).run s).2.1.held a ∨ name = q.1 ∧ scope = a := by
  obtain ⟨r, w⟩ := s
  rw [run_closeProvider]
  cases (r.held scope).lookup name with
  | none => exact .inl hq
  | some p =>
    simp only [held_putBack, Function.update_apply]
    split
    · next ha =>
      subst ha
      by_cases hname : q.1 = name
      · exact .inr ⟨hname.symm, rfl⟩
      · exact .inl (FiniteMap.mem_drop_of_ne hname hq)
    · exact .inl hq

theorem closeScope_stays (scope : ScopeId) (s : Registry ι π × ω) {a : ScopeId} {q : String × π}
    (hq : q ∈ s.1.held a) : q ∈ ((closeScope k.close scope).run s).2.1.held a ∨ scope = a := by
  rw [run_closeScope, held_erase, Function.update_apply]
  split
  · next ha => exact .inr ha.symm
  · exact .inl hq

theorem closeScope_withdraws (h : k.Ledger made closed) (hs : Sound made closed s)
    (scope : ScopeId) :
    Withdraws made closed (s.1.held scope) s ((closeScope k.close scope).run s).2 where
  scopes := rfl
  held a := by
    rw [run_closeScope, held_erase, Function.update_apply]
    split
    · exact List.nil_sublist _
    · exact .refl _
  distinct := hs.instances scope
  taken q hq := ⟨scope, hq⟩
  released {a q} hq hgone := by
    rw [run_closeScope, held_erase, Function.update_apply] at hq
    split at hq
    · cases hq
    · next ha =>
      obtain ⟨p, hp, heq⟩ := List.mem_map.1 hgone
      exact ha (hs.apart hq hp heq.symm)
  existing _ := closeEach_keeps h _
  closed := closeEach_closed h ..

theorem closeAll_withdraws (h : k.Ledger made closed) (hs : Sound made closed s) :
    Withdraws made closed s.1.everything s ((closeAll k.close).run s).2 where
  scopes := rfl
  held _ := List.nil_sublist _
  distinct := hs.nodup_everything
  taken _ hq := mem_everything.1 hq
  released hq := by cases hq
  existing _ := closeEach_keeps h _
  closed := closeEach_closed h ..

namespace Operation

def asked : Operation ι → Option ScopeId
  | .providers scope => some scope
  | .provider scope => some scope
  | .providerNamed _ scope => some scope
  | _ => none

def Closes (name : String) (scope : ScopeId) : Operation ι → Prop
  | .closeProvider n a => n = name ∧ a = scope
  | .closeScope a => a = scope
  | .closeAll => True
  | _ => False

inductive Effect (made : ω → π → Prop) (closed : ω → List π) (op : Operation ι)
    (s s' : Registry ι π × ω) : Prop
  | grows {scope : ScopeId} {new : List (String × π)} (asked : op.asked = some scope)
      (grows : Grows made closed scope new (s.1.forget, s.2) s')
  | builds (registry : s'.1 = s.1) (world : Built made closed s.2 s'.2)
  | withdraws {gone : List (String × π)} (withdraws : Withdraws made closed gone s s')
      (stays : ∀ {a q}, q ∈ s.1.forget.held a → q ∈ s'.1.held a ∨ op.Closes q.1 a)
  | rescopes (world : s'.2 = s.2) (held : s'.1.held = s.1.held)
      (made : s.1.scopes.made.length ≤ s'.1.scopes.made.length)
      (alive : ∀ a, s'.1.scopes.isAlive a = true → a < s.1.scopes.made.length →
        s.1.scopes.isAlive a = true)

theorem grows_of_asked (h : k.Ledger made closed) {op : Operation ι} (hop : op.asked = some scope)
    (s : Registry ι π × ω) :
    ∃ new, Grows made closed scope new (s.1.forget, s.2) ((op.run k).run s).2 ∧
      ∀ reply p, ((op.run k).run s).1 = .ok reply → p ∈ reply.instances →
        ∃ name, (name, p) ∈ ((op.run k).run s).2.1.held scope ∧ ∀ n, op = .providerNamed n scope →
          n = name := by
  cases op with
  | providers a =>
    obtain rfl : a = scope := Option.some.inj hop
    obtain ⟨new, hgrows, hps⟩ := providers_grows h a s
    rw [Operation.run, Action.snd_run_map]
    refine ⟨new, hgrows, fun reply p hreply hp => ?_⟩
    obtain ⟨ps, hrun, rfl⟩ := Action.exists_of_run_map hreply
    have hmem : p ∈ (held _ a).map Prod.snd := hps ps hrun ▸ hp
    obtain ⟨q, hq, rfl⟩ := List.mem_map.1 hmem
    exact ⟨q.1, hq, nofun⟩
  | provider a =>
    obtain rfl : a = scope := Option.some.inj hop
    obtain ⟨new, hgrows, hps⟩ := providers_grows h a s
    rw [Operation.run, Action.snd_run_map, snd_run_provider]
    refine ⟨new, hgrows, fun reply p hreply hp => ?_⟩
    obtain ⟨p', hrun, rfl⟩ := Action.exists_of_run_map hreply
    have hmem : p ∈ [p'] := hp
    rw [hps [p'] (providers_of_provider hrun)] at hmem
    obtain ⟨q, hq, rfl⟩ := List.mem_map.1 hmem
    exact ⟨q.1, hq, nofun⟩
  | providerNamed name a =>
    obtain rfl : a = scope := Option.some.inj hop
    obtain ⟨new, hgrows, hps⟩ := providerNamed_grows h name a s
    rw [Operation.run, Action.snd_run_map]
    refine ⟨new, hgrows, fun reply p hreply hp => ?_⟩
    obtain ⟨p', hrun, rfl⟩ := Action.exists_of_run_map hreply
    obtain rfl := List.mem_singleton.1 hp
    refine ⟨name, hps p hrun, ?_⟩
    rintro _ ⟨⟩
    rfl
  | _ => cases hop

theorem effect (h : k.Ledger made closed) (hs : Sound made closed s) (op : Operation ι) :
    Effect made closed op s ((op.run k).run s).2 := by
  cases op with
  | makeScope label parent =>
    rw [Operation.run, Action.snd_run_map]
    exact .rescopes rfl rfl (Nat.le_succ _) fun _ => Scopes.isAlive_of_make
  | register scope name service =>
    exact .rescopes rfl rfl (Nat.le_of_eq (Scopes.length_made_register ..).symm) fun _ ha _ => ha
  | dropScopes captures held =>
    rw [Operation.run, Action.snd_run_map]
    refine .rescopes rfl rfl ?_ fun _ ha _ => Scopes.isAlive_of_drop ha
    exact Nat.le_of_eq (congrArg _ (Scopes.made_drop ..).symm)
  | setDefaultScope scope =>
    rw [Operation.run, Action.snd_run_map]
    exact .rescopes rfl rfl (Nat.le_refl _) fun _ ha _ => ha
  | setContext scope =>
    rw [Operation.run, Action.snd_run_map]
    exact .rescopes rfl rfl (Nat.le_refl _) fun _ ha _ => ha
  | providers scope =>
    obtain ⟨new, hgrows, -⟩ := grows_of_asked h (rfl : (Operation.providers scope).asked = _) s
    exact .grows rfl hgrows
  | provider scope =>
    obtain ⟨new, hgrows, -⟩ := grows_of_asked h (rfl : (Operation.provider scope).asked = _) s
    exact .grows rfl hgrows
  | providerNamed name scope =>
    obtain ⟨new, hgrows, -⟩ := grows_of_asked h
      (rfl : (Operation.providerNamed name scope).asked = _) s
    exact .grows rfl hgrows
  | load name scope =>
    rw [Operation.run, Action.snd_run_map]
    exact .builds (load_leaves name scope s) (load_built h name scope s).1
  | count =>
    rw [Operation.run, Action.snd_run_map]
    exact .withdraws (forget_withdraws s) .inl
  | closeProvider name scope =>
    rw [Operation.run, Action.snd_run_map]
    obtain ⟨gone, hgone⟩ := closeProvider_withdraws h hs name scope
    exact .withdraws hgone fun hq => closeProvider_stays name scope s (mem_of_mem_forget hq)
  | closeScope scope =>
    rw [Operation.run, Action.snd_run_map]
    exact .withdraws (closeScope_withdraws h hs scope) fun hq =>
      closeScope_stays scope s (mem_of_mem_forget hq)
  | closeAll =>
    rw [Operation.run, Action.snd_run_map]
    exact .withdraws (closeAll_withdraws h hs) fun _ => .inr trivial

end Operation

theorem Sound.effect (h : Sound made closed s) {op : Operation ι} (he : op.Effect made closed s t) :
    Sound made closed t := by
  cases he with
  | grows asked hgrows => exact (h.withdraws (forget_withdraws s)).grows hgrows
  | builds hr hbuilt =>
    obtain ⟨r, w⟩ := t
    obtain rfl : r = s.1 := hr
    exact h.grows (.of_built hbuilt : Grows made closed 0 [] _ _)
  | withdraws hw _ => exact h.withdraws hw
  | rescopes hw hheld hmade _ => exact h.of_held hw hheld hmade

theorem sound_new (c : Scopes ι) (override : Option String) {w : ω} (hw : closed w = []) :
    Sound made closed ((Registry.new c override : Registry ι π), w) where
  names _ := List.nodup_nil
  instances _ := List.nodup_nil
  apart := nofun
  existing := nofun
  known := nofun
  closedOnce := hw ▸ List.nodup_nil
  closedMade p hp := by
    rw [hw] at hp
    cases hp
  closedGone := nofun

theorem Sound.runAll (h : k.Ledger made closed) (hs : Sound made closed s)
    (ops : List (Operation ι)) : Sound made closed (Operation.runAll k ops s).2 := by
  induction ops generalizing s with
  | nil => exact hs
  | cons op ops ih => exact ih (hs.effect (op.effect h hs))

end EntryCache.Registry

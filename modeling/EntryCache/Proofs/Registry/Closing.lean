import EntryCache.Proofs.Registry.Instances

namespace EntryCache.Registry

variable {ι π ω : Type} {k : Workshop ι π ω} {r : Registry ι π} {s : Registry ι π × ω}
  {scope : ScopeId}
  {name : String}

structure Closing (π : Type) : Type where
  name : String
  provider : π
  answer : Except Error Unit

namespace Closing

def entry (c : Closing π) : String × π := (c.name, c.provider)

def deed (c : Closing π) : Deed ι π := .closed c.provider c.answer

def failure (c : Closing π) : Option (String × Error) :=
  match c.answer with
  | .ok () => none
  | .error e => some (c.name, e)

end Closing

/-- An operation closes providers, each once and in order, and answers the failures; it leaves a
table behind. -/
structure Shuts (k : Workshop ι π ω) (op : Operation ι) (s : Registry ι π × ω)
    (ps : List (String × π))
    (table : ScopeId → Option (List (String × π))) (closings : List (Closing π)) : Prop where
  closes : closings.map Closing.entry = ps
  does : op.Does k s (closings.map Closing.deed)
  ok : closings.filterMap Closing.failure = [] → ((op.run k).run s).1 = .ok .done
  failed : closings.filterMap Closing.failure ≠ [] →
    ((op.run k).run s).1 = .error (.shutdown (closings.filterMap Closing.failure))
  table : ((op.run k).run s).2.1.table.get? = table
  rest : ((op.run k).run s).2.1 = { s.1 with table := ((op.run k).run s).2.1.table }

theorem fst_closeEach_cons (close : π → Action ω Unit) (q : String × π)
    (ps : List (String × π)) (w : ω) : (closeEach close (q :: ps) w).1 =
      (Closing.mk q.1 q.2 ((close q.2).run w).1).failure.toList ++
        (closeEach close ps ((close q.2).run w).2).1 := by
  rw [closeEach]
  simp only
  rw [Action.run, Closing.failure]
  cases (close q.2 w).1 <;> rfl

theorem closeEach_noted (k : Workshop ι π ω) (ps : List (String × π)) (w : ω)
    (before : List (Deed ι π)) : ∃ closings : List (Closing π), closings.map Closing.entry = ps ∧
      (closeEach k.close ps w).1 = closings.filterMap Closing.failure ∧
      closeEach k.noted.close ps (w, before) =
        ((closeEach k.close ps w).1, ((closeEach k.close ps w).2,
          before ++ closings.map Closing.deed)) := by
  induction ps generalizing w before with
  | nil => exact ⟨[], rfl, rfl, by simp [closeEach]⟩
  | cons q ps ih =>
    let c : Closing π := ⟨q.1, q.2, ((k.close q.2).run w).1⟩
    obtain ⟨closings, hentries, hfailures, hrun⟩ := ih ((k.close q.2).run w).2 (before ++ [c.deed])
    refine ⟨c :: closings, ?_, ?_, ?_⟩
    · rw [List.map_cons, hentries]
      rfl
    · rw [fst_closeEach_cons, hfailures, List.filterMap_cons]
      change c.failure.toList ++ _ = _
      cases c.failure <;> rfl
    · apply Prod.ext
      · rw [fst_closeEach_cons, fst_closeEach_cons, Workshop.run_close_noted]
        exact congrArg (c.failure.toList ++ ·) (congrArg Prod.fst hrun)
      · rw [closeEach_cons, closeEach_cons, Workshop.run_close_noted]
        refine (congrArg Prod.snd hrun).trans ?_
        rw [List.append_assoc]
        rfl

theorem get?_putBack (r : Registry ι π) (scope : ScopeId) (ps : List (String × π)) :
    (r.putBack scope ps).table.get? = Function.update r.table.get? scope
    (if ps.isEmpty then none else some ps) := by
  cases ps with
  | nil => exact FiniteMap.get?_erase_eq_update ..
  | cons p ps => exact FiniteMap.get?_insert_eq_update ..

theorem shuts_of_closeEach (op : Operation ι) {r' : Registry ι π} {w : ω} {ps : List (String × π)}
    {table : ScopeId → Option (List (String × π))}
    (hrun : ∀ (ω' : Type) (k' : Workshop ι π ω') (w' : ω'), (op.run k').run (r, w') =
      ((shutdown (closeEach k'.close ps w').1).map fun _ => .done,
        (r', (closeEach k'.close ps w').2)))
    (htable : r'.table.get? = table) (hrest : r' = { r with table := r'.table }) :
    ∃ closings, Shuts k op (r, w) ps table closings := by
  obtain ⟨closings, hentries, hfailures, hnoted⟩ := closeEach_noted k ps w []
  refine ⟨closings, hentries, ?_, fun hnil => ?_, fun hne => ?_, ?_, ?_⟩
  · rw [Operation.Does, hrun, hrun, hnoted]
    rfl
  · rw [hrun, hfailures, hnil]
    rfl
  · rw [hrun, hfailures, shutdown]
    · rfl
    · exact hne
  · rw [hrun]
    exact htable
  · rw [hrun]
    exact hrest

/-- In every registry: all providers are closed, or those of a scope, or the one of a name, each of
them once whether the others fail or not; the failures are answered, and the providers that were
closed are all that the registry loses. -/
theorem closings_exact (k : Workshop ι π ω) (r : Registry ι π) (w : ω) :
    (∃ closings, Shuts k .closeAll (r, w) r.everything (fun _ => none) closings) ∧
      (∀ scope, ∃ closings,
        Shuts k (.closeScope scope) (r, w) (r.held scope)
          (Function.update r.table.get? scope none) closings) ∧
      ∀ name scope,
        (name ∉ (r.held scope).map Prod.fst →
          (Operation.closeProvider name scope).Does k (r, w) [] ∧
            ((Operation.closeProvider name scope).run k).run (r, w) = (.ok .done, (r, w))) ∧
        ∀ before p after, r.held scope = before ++ (name, p) :: after → name ∉ before.map Prod.fst →
          ∃ closings, Shuts k (.closeProvider name scope) (r, w) [(name, p)]
            (Function.update r.table.get? scope
            (if (before ++ after).isEmpty then none else some (before ++ after))) closings := by
  refine ⟨?_, fun scope => ?_, fun name scope =>
    ⟨fun hname => ?_, fun before p after hheld hname => ?_⟩⟩
  · exact shuts_of_closeEach .closeAll
      (fun _ k' w' => by rw [Operation.run, Action.run_map, run_closeAll]) rfl rfl
  · refine shuts_of_closeEach (.closeScope scope)
      (fun _ k' w' => by rw [Operation.run, Action.run_map, run_closeScope])
      (FiniteMap.get?_erase_eq_update ..) rfl
  · have hlookup : (r.held scope).lookup name = none := by
      rw [List.lookup_eq_none_iff]
      intro q hq
      simpa using fun heq => hname (List.mem_map.2 ⟨q, hq, heq.symm⟩)
    have hrun : ∀ (ω' : Type) (k' : Workshop ι π ω') (w' : ω'),
        ((Operation.closeProvider name scope).run k').run (r, w') = (.ok .done, (r, w')) :=
          fun _ k' w' => by
      rw [Operation.run, Action.run_map, run_closeProvider, hlookup]
      rfl
    refine ⟨?_, hrun _ k w⟩
    rw [Operation.Does, hrun, hrun]
    rfl
  · have hlookup : (r.held scope).lookup name = some p :=
      hheld ▸ FiniteMap.lookup_append_cons hname p after
    have hdrop : FiniteMap.drop name (r.held scope) = before ++ after :=
      hheld ▸ FiniteMap.drop_append_cons hname p after
    have hget := get?_putBack r scope (before ++ after)
    refine shuts_of_closeEach (.closeProvider name scope) (fun _ k' w' => ?_) hget rfl
    rw [Operation.run, Action.run_map, run_closeProvider, hlookup, hdrop]

theorem closings_exact_failing :
    let k : Workshop String String Unit :=
      ⟨fun service w => (.ok service, w),
        fun p w => (if p = "bad" then .error (.cache "stuck") else .ok (), w), id⟩
    let r : Registry String String :=
      ((Registry.new .new none).shelve 1 [("a", "x"), ("b", "bad"), ("c", "y")]).shelve 2
        [("d", "bad")]
    (∃ closings, Shuts k .closeAll (r, ()) [("a", "x"), ("b", "bad"), ("c", "y"), ("d", "bad")]
      (fun _ => none)
      closings) ∧
      ((Operation.closeAll.run k).run (r, ())).1 =
        .error (.shutdown [("b", .cache "stuck"), ("d", .cache "stuck")]) ∧
      r.held 1 = [("a", "x")] ++ ("b", "bad") :: [("c", "y")] ∧ "b" ∉ [("a", "x")].map Prod.fst ∧
      ∃ closings, Shuts k (.closeProvider "b" 1) (r, ()) [("b", "bad")]
        (Function.update r.table.get? 1 (some [("a", "x"), ("c", "y")])) closings := by
  intro k r
  have hclosings := closings_exact k r ()
  have hheld : r.held 1 = [("a", "x")] ++ ("b", "bad") :: [("c", "y")] := rfl
  have hname : "b" ∉ [("a", "x")].map Prod.fst := by decide
  exact ⟨hclosings.1, rfl, hheld, hname, (hclosings.2.2 "b" 1).2 _ _ _ hheld hname⟩

end EntryCache.Registry

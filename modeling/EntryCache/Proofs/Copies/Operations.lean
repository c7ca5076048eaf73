import EntryCache.Proofs.Cache.Recording
import EntryCache.Proofs.Copies.Blind
import EntryCache.Proofs.Plain.Map

namespace EntryCache.Cache

variable {ω κ α β γ : Type} [DecidableEq κ] {P : α → Prop}

namespace Blind

theorem notify (t : EventType) (k : κ) (value old : Option α) :
    Blind P Any (notify t k value old : Op ω κ α Unit) :=
  beside (a := fun c => Action.forEach (fun r => tell r (eventFor c.name t k value old r))
      c.listeners)
    (fun _ => rfl) fun _ _ _ _ _ => trivial

theorem writeThrough (k : κ) (v : α) : Blind P Any (writeThrough k v : Op ω κ α Unit) :=
  beside (a := fun c => onSome c.writer? fun wr => (wr.write k v).mapError (·.attributeTo .writer))
    (fun _ => rfl) fun _ _ _ _ _ => trivial

theorem deleteThrough (k : κ) : Blind P Any (deleteThrough k : Op ω κ α Unit) :=
  beside (a := fun c => onSome c.writer? fun wr => (wr.delete k).mapError (·.attributeTo .writer))
    (fun _ => rfl) fun _ _ _ _ _ => trivial

theorem storeValue (k : κ) {v : α} (hv : P v) :
    Blind P Any (storeValue k v : Op ω κ α (Option α)) := by
  refine (writeThrough k v).bind fun _ _ => ?_
  refine (copied hv).bind ?_
  rintro stored rfl
  refine (looks fun _ => rfl).bind fun old _ => ?_
  have henter : Blind P Any (Cache.update fun c : Cache ω κ α => (c.enter k stored).countPut) :=
    update (fun _ => rfl) fun c hc => (hc.enter k hv).count _
  refine henter.bind fun _ _ => ?_
  cases old with
  | some o => exact (notify _ _ _ _).then_pure
  | none => exact (notify _ _ _ _).then_pure

theorem deleteValue (k : κ) : Blind P Any (deleteValue k : Op ω κ α (Option α)) := by
  refine (deleteThrough k).bind fun _ _ => ?_
  refine (looks fun _ => rfl).bind fun old _ => ?_
  cases old with
  | some o =>
    have hwithout : Blind P Any (Cache.update (without k) : Op ω κ α Unit) :=
      update (fun _ => rfl) fun c hc => hc.without k
    refine hwithout.bind fun _ _ => ?_
    exact (notify _ _ _ _).then_pure
  | none => exact pure trivial

theorem lookup (k : κ) :
    Blind P (fun v => ∀ x ∈ v, P x) (Cache.look fun c : Cache ω κ α => c.entries.get? k) :=
  look (fun _ => rfl) fun _ hc => hc.holds k

theorem mapped (k : κ) : Blind P Any (Cache.look fun c : Cache ω κ α => c.entries.contains k) :=
  looks fun _ => rfl

theorem readThrough (k : κ) {l : Loader ω κ α} (hl : l.Brings P) :
    Blind P Any (readThrough k l) := by
  have hload : Blind P (fun v => ∀ x ∈ v, P x)
    (((l.load k).mapError (·.attributeTo .loader)).beside : Op ω κ α _) :=
    world fun _ _ hv => hl.load (Action.ok_of_run_mapError hv)
  refine hload.bind fun v hv => ?_
  cases v with
  | none => exact pure trivial
  | some v =>
    have hv : P v := hv v rfl
    refine (copied hv).bind ?_
    rintro stored rfl
    refine (update (f := Cache.enter k stored) (fun _ => rfl) fun c hc => hc.enter k hv).bind
      fun _ _ => ?_
    exact (notify _ _ _ _).then_pure

theorem countHit : Blind P Any (Cache.update Cache.countHit : Op ω κ α Unit) :=
  update (fun _ => rfl) fun _ hc => hc.count _

theorem countMiss : Blind P Any (Cache.update Cache.countMiss : Op ω κ α Unit) :=
  update (fun _ => rfl) fun _ hc => hc.count _

theorem get (k : κ) : Blind P Any (get k : Op ω κ α (Option α)) := by
  refine opened ((lookup k).bind fun v hv => ?_)
  cases v with
  | some v => exact (copied (hv v rfl)).bind fun _ _ => countHit.then_pure
  | none =>
    refine countMiss.bind fun _ _ => ?_
    have hloader : Blind P (fun l => ∀ x ∈ l, x.Brings P)
      (Cache.look (loader? : Cache ω κ α → _)) :=
      look (fun _ => rfl) fun _ hc l hl => hc.loader l (loader_of_loader? hl)
    refine hloader.bind fun l hl => ?_
    cases l with
    | some l => exact readThrough k (hl l rfl)
    | none => exact pure trivial

theorem put (k : κ) {v : α} (hv : P v) :
    Blind P Any (put k v : Op ω κ α Unit) := opened (storeValue k hv).discard

theorem putIfAbsent (k : κ) {v : α} (hv : P v) : Blind P Any (putIfAbsent k v : Op ω κ α Bool) := by
  refine opened ((mapped k).bind fun known _ => ?_)
  cases known with
  | true => exact pure trivial
  | false => exact (storeValue k hv).discard.then_pure

theorem removeIfEquals [DecidableEq α] (k : κ) (old : α) :
    Blind P Any (removeIfEquals k old : Op ω κ α Bool) := by
  refine opened ((lookup k).bind fun v _ => ?_)
  split
  · exact (deleteValue k).discard.then_pure
  · exact pure trivial

theorem replaceIfEquals [DecidableEq α] (k : κ) (old : α) {new : α} (hnew : P new) :
    Blind P Any (replaceIfEquals k old new : Op ω κ α Bool) := by
  refine opened ((lookup k).bind fun v _ => ?_)
  split
  · exact (storeValue k hnew).discard.then_pure
  · exact pure trivial

theorem getAndReplace (k : κ) {v : α} (hv : P v) :
    Blind P Any (getAndReplace k v : Op ω κ α (Option α)) := by
  refine opened ((mapped k).bind fun known _ => ?_)
  cases known with
  | true => exact storeValue k hv
  | false => exact pure trivial

theorem getOrPutWith (k : κ) {compute : κ → Action ω α}
    (hc : ∀ w v, ((compute k).run w).1 = .ok v → P v) :
    Blind P Any (getOrPutWith k compute : Op ω κ α α) := by
  refine (get k).bind fun v _ => ?_
  cases v with
  | some v => exact pure trivial
  | none => exact (world hc).bind fun v hv => (put k hv).then_pure

theorem getEach (ks : List κ) (found : FiniteMap κ α) :
    Blind P Any (getEach found ks : Op ω κ α _) := by
  induction ks generalizing found with
  | nil => exact pure trivial
  | cons k ks ih =>
    refine (get k).bind fun v _ => ?_
    cases v with
    | some v => exact ih _
    | none => exact ih _

theorem listEntries : Blind P Any (listEntries : Op ω κ α (List (κ × α))) := by
  have hentries : Blind P (fun es : List (κ × α) => ∀ p ∈ es, P p.2)
    (Cache.look fun c : Cache ω κ α => c.entries.toList) :=
    look (fun _ => rfl) fun c hc p hp => hc.holds p.1 p.2 (FiniteMap.mem_toList_iff.1 hp)
  refine opened (hentries.bind fun es hes => ?_)
  induction es with
  | nil => exact pure trivial
  | cons p es ih =>
    rw [List.forall_mem_cons] at hes
    have hentry : Blind P Any (entryOf p : Op ω κ α (κ × α)) := (copied hes.1).then_pure
    exact hentry.bind fun _ _ => (ih hes.2).then_pure

theorem loadInto (ks : List κ) (all : Bool) : Blind P Any (loadInto ks all : Op ω κ α Unit) := by
  have hloader : Blind P (fun l => ∀ x ∈ l, x.Brings P)
    (Cache.look fun c : Cache ω κ α => c.loader) :=
    look (fun _ => rfl) fun _ hc => hc.loader
  refine hloader.bind fun l hl => ?_
  cases l with
  | none => exact pure trivial
  | some l =>
    refine (looks fun _ => rfl).bind fun ks _ => ?_
    have hload : Blind P (fun m : FiniteMap κ α => ∀ k, ∀ x ∈ m.get? k, P x)
        (((l.loadAll ks).mapError (·.attributeTo .loader)).beside : Op ω κ α _) :=
      world fun _ _ hm => (hl l rfl).loadAll (Action.ok_of_run_mapError hm)
    refine hload.bind fun m hm => forEach fun p hp => ?_
    have hv : P p.2 := hm p.1 p.2 (FiniteMap.mem_toList_iff.1 hp)
    refine (copied hv).bind ?_
    rintro stored rfl
    exact update (fun _ => rfl) fun c hc => hc.enter p.1 hv

theorem loadAll (ks : List κ) (all : Bool) (listener : Option (CompletionListener ω)) :
    Blind P Any (loadAll ks all listener : Op ω κ α Unit) :=
  opened ((loadInto ks all).attempt.bind fun _ _ => world fun _ _ _ => trivial)

def runOn (k : κ) (p : Processor α β) (current : Option α) :
    Op ω κ α (Except Error β × StagedEntry α) :=
  Cache.look (loading k) >>= fun load =>
    Action.beside fun w =>
      let r := StagedEntry.run load p (.ofCurrent current) w
      (.ok (r.1, r.2.1), r.2.2)

theorem runOn_brings (k : κ) {p : Processor α β} (hp : p.Brings P) {current : Option α}
    (h : ∀ x ∈ current, P x) :
    Blind P (fun r => ∀ x ∈ r.2.value, P x) (runOn k p current : Op ω κ α _) := by
  have hloading : Blind P (fun load => ∀ l ∈ load, ∀ {w v}, (l.run w).1 = .ok v → ∀ x ∈ v, P x)
      (Cache.look (loading k : Cache ω κ α → _)) := by
    refine look (fun _ => rfl) fun c hc load hload _ _ hv => ?_
    obtain ⟨l, hl, rfl⟩ := Option.map_eq_some_iff.1 hload
    exact (hc.loader l (loader_of_loader? hl)).load hv
  refine hloading.bind fun load hload => world fun w r hr => ?_
  cases hr
  exact StagedEntry.run_brings hload hp h w

theorem runStaged (k : κ) {p : Processor α β} (hp : p.Brings P) :
    Blind P (fun r => ∀ x ∈ r.2.value, P x)
      (runStaged k p : Op ω κ α (Except Error β × StagedEntry α)) := by
  refine opened ((lookup k).bind fun v hv => ?_)
  cases v with
  | none => exact runOn_brings k hp hv
  | some v =>
    have hcopied : Blind P (fun v => ∀ x ∈ v, P x)
        (some <$> Cache.copied v : Op ω κ α (Option α)) := by
      refine (copied (hv v rfl)).bind (f := fun x => Pure.pure (some x)) ?_
      rintro stored rfl
      exact pure hv
    exact hcopied.bind fun current hcurrent => runOn_brings k hp hcurrent

theorem commit (k : κ) {staged : StagedEntry α} (h : ∀ x ∈ staged.value, P x) :
    Blind P Any (commit k staged : Op ω κ α Unit) := by
  have houtcome : Blind P (fun o : Outcome α => ∀ x ∈ o.value?, P x)
    (.ofExcept staged.outcome : Op ω κ α _) :=
    ofExcept fun _ ho => StagedEntry.outcome_brings ho h
  refine houtcome.bind fun o ho => ?_
  cases o with
  | nothing => exact pure trivial
  | accessed => exact countHit
  | loaded v => exact (storeValue k (ho v rfl)).discard
  | created v => exact (storeValue k (ho v rfl)).discard
  | updated v => exact (storeValue k (ho v rfl)).discard
  | removed => exact (deleteValue k).discard

def answering (f : Cache ω κ α × ω → γ × (Cache ω κ α × ω)) :
    Op ω κ α γ := fun s => (.ok (f s).1, (f s).2)

theorem invokeRaw (k : κ) {p : Processor α β} (hp : p.Brings P) :
    Blind P Any (answering (invokeRaw k p) : Op ω κ α (RawRun β)) := by
  -- Neither a failed run nor a failed commit fails the whole, so both are attempts.
  have hraw : (answering (Cache.invokeRaw k p) : Op ω κ α (RawRun β)) =
    (Cache.runStaged k p).attempt >>= fun
      | .error e => Pure.pure ⟨.error e, []⟩
      | .ok (.error e, _) => Pure.pure ⟨.error e, [.error e]⟩
      | .ok (.ok b, staged) => (Cache.commit k staged).attempt >>= fun r =>
          Pure.pure ⟨r, [.ok b]⟩ := by
    funext s
    rw [answering, Cache.invokeRaw]
    change _ = Action.run (_ >>= _) s
    rw [Action.run_bind, Action.run_attempt, Action.run]
    rcases Cache.runStaged k p s with ⟨e | ⟨e | b, staged⟩, s'⟩ <;> rfl
  rw [hraw]
  refine (runStaged k hp).attempt.bind fun r hr => ?_
  rcases r with e | ⟨e | b, staged⟩
  · exact pure trivial
  · exact pure trivial
  · exact (commit k (hr _ rfl)).attempt.then_pure

theorem invoke (k : κ) {p : Processor α β} (hp : p.Brings P) :
    Blind P Any (invokeAround id k p : Op ω κ α β) := by
  have hinvoke : (invokeAround id k p : Op ω κ α β) = Cache.look (·.name) >>= fun name =>
      answering (Cache.invokeRaw k (p.map (·.mapError (·.attributeTo .processor)))) >>= fun r =>
        .ofExcept (r.conclude name) := rfl
  rw [hinvoke]
  refine (looks fun _ => rfl).bind fun name _ => ?_
  exact (invokeRaw k (hp.map _)).bind fun r _ => ofExcept fun _ _ => trivial

theorem resultsOf {step : κ → Op ω κ α β} (ks : List κ) (h : ∀ k ∈ ks, Blind P Any (step k)) :
    Blind P Any (answering (resultsOf step ks)) := by
  induction ks with
  | nil => exact pure trivial
  | cons k ks ih =>
    rw [List.forall_mem_cons] at h
    have hcons : answering (EntryCache.resultsOf step (k :: ks)) = (step k).attempt >>= fun r =>
        answering (EntryCache.resultsOf step ks) >>= fun rs => Pure.pure ((k, r) :: rs) := rfl
    rw [hcons]
    exact h.1.attempt.bind fun r _ => (ih h.2).then_pure

theorem registerListener (handle : ListenerHandle) (config : ListenerConfiguration ω κ α) :
    Blind P Any (registerListener handle config) := by
  refine opened ((looks fun _ => rfl).bind fun rs _ => ?_)
  cases rs.any (·.handle == handle) with
  | true => exact ofExcept nofun
  | false => exact fun c w hc =>
      ⟨_, _, _, rfl, rfl, ⟨hc.copies, hc.holds, hc.loader⟩, fun _ _ => trivial⟩

theorem deregisterListener (handle : ListenerHandle) :
    Blind P Any (deregisterListener handle : Op ω κ α Unit) :=
  opened (update (fun _ => rfl) fun _ hc => ⟨hc.copies, hc.holds, hc.loader⟩)

end Blind

theorem Operation.blind_run [DecidableEq α] {op : Operation ω κ α β} (h : op.Brings P) :
    Blind P Any (op.run id) := by
  cases op with
  | get k => exact (Blind.get k).then_pure
  | getAll ks => exact (Blind.getEach ks ∅).then_pure
  | containsKey k => exact (Blind.mapped k).opened.then_pure
  | loadAll ks all l => exact (Blind.loadAll ks all l).then_pure
  | put k v => exact (Blind.put (P := P) k h).then_pure
  | getAndPut k v => exact (Blind.storeValue (P := P) k h).opened.then_pure
  | putAll es =>
      exact (Blind.forEach fun p hp => (Blind.storeValue p.1 (h p hp)).discard).opened.then_pure
  | putIfAbsent k v => exact (Blind.putIfAbsent (P := P) k h).then_pure
  | remove k => exact (Blind.deleteValue k).then_pure.opened.then_pure
  | removeIfEquals k old => exact (Blind.removeIfEquals k old).then_pure
  | getAndRemove k => exact (Blind.deleteValue k).opened.then_pure
  | replaceIfEquals k old new => exact (Blind.replaceIfEquals k old h).then_pure
  | replace k v => exact (Blind.getAndReplace (P := P) k h).then_pure.then_pure
  | getAndReplace k v => exact (Blind.getAndReplace (P := P) k h).then_pure
  | removeKeys ks => exact (Blind.forEach fun k _ => (Blind.deleteValue k).discard).opened.then_pure
  | removeAll =>
    have hkeys : Blind P Any (look fun c : Cache ω κ α => c.entries.keys) := .looks fun _ => rfl
    exact (hkeys.bind fun ks _ => .forEach fun k _ =>
      (Blind.deleteValue k).discard).opened.then_pure
  | clear =>
    have hclear : Blind P Any (update fun c : Cache ω κ α => { c with entries := ∅ }) :=
      .update (fun _ => rfl) fun c hc => ⟨hc.copies, nofun, hc.loader⟩
    exact hclear.opened.then_pure
  | entries => exact Blind.listEntries.then_pure
  | invoke k p => exact (Blind.invoke k h).then_pure
  | invokeAll ks p => exact (Blind.resultsOf ks fun k hk => Blind.invoke k (h k hk)).then_pure
  | invokeRaw k p => exact (Blind.invokeRaw k h).then_pure
  | getOrPutWith k compute =>
      exact (Blind.getOrPutWith k fun w v hv => h w v _ (Prod.ext hv rfl)).then_pure
  | register handle config => exact (Blind.registerListener handle config).then_pure
  | deregister handle => exact (Blind.deregisterListener handle).then_pure
  | clearStatistics =>
    have hclear : Blind P Any (update fun c : Cache ω κ α => { c with stats := default }) :=
      .update (fun _ => rfl) fun _ hc => hc.count _
    exact hclear.then_pure
  | close =>
    have hclose : Blind P Any (update (Cache.close : Cache ω κ α → _)) :=
      .update (fun _ => rfl) fun _ hc => ⟨hc.copies, hc.holds, hc.loader⟩
    exact hclose.then_pure

theorem Operation.runAll_byReference [DecidableEq α] (ops : List (Operation ω κ α β))
    (hops : ∀ op ∈ ops, op.Brings P) {c : Cache ω κ α} (hc : c.Sound P) (w : ω) :
    ∃ rs c' w', runAll ops (c, w) = (rs, (c', w')) ∧ runAll ops (c.byReference, w) =
      (rs, (c'.byReference, w')) := by
  induction ops generalizing c w with
  | nil => exact ⟨[], c, w, rfl, rfl⟩
  | cons op ops ih =>
    rw [List.forall_mem_cons] at hops
    obtain ⟨r, c₁, w₁, hrun, href, hc₁, -⟩ := op.blind_run hops.1 c w hc
    obtain ⟨rs, c', w', hruns, hrefs⟩ := ih hops.2 hc₁ w₁
    rw [Action.run] at hrun href
    refine ⟨r :: rs, c', w', ?_, ?_⟩
    · simp only [runAll, hrun, hruns]
    · simp only [runAll, href, hrefs]

theorem create_byReference (name : String) (config : Configuration ω κ α)
    {copy : α → Except Error α} (hcopy : ∀ v, P v → copy v = .ok v)
    (hloader : ∀ f ∈ config.loader, ∀ w, (f.create w).1.Brings P) (w : ω) :
    ∃ c w', create name (config.withStoreByValue true) copy w = (c, w') ∧
      create name (config.withStoreByValue false) .ok w = (c.byReference, w') ∧ c.Sound P := by
  let loader := createOption config.loader w
  let writer := createOption config.writer loader.2
  have hstart : Sound P (⟨name, config.withStoreByValue true, copy, loader.1, writer.1, ∅, [],
    default, false⟩ :
      Cache ω κ α) := by
    refine ⟨hcopy, nofun, fun l hl => ?_⟩
    cases hf : config.loader with
    | none => simp [loader, createOption, hf] at hl
    | some f =>
      simp only [loader, createOption, hf, Option.mem_some] at hl
      exact hl ▸ hloader f hf w
  have hregister : Blind P Any (Action.forEach (fun p : ListenerConfiguration ω κ α × Nat =>
      registerListener (.initial p.2) p.1) config.listeners.zipIdx) :=
    .forEach fun p _ => .registerListener (.initial p.2) p.1
  obtain ⟨r, c, w', hrun, href, hc, -⟩ := hregister _ writer.2 hstart
  exact ⟨c, w', congrArg Prod.snd hrun, congrArg Prod.snd href, hc⟩

def Operation.runNew (t : ValueType) [DecidableEq t.Carrier] (name : String)
    (config : Configuration ω κ t.Carrier)
    (ops : List (Operation ω κ t.Carrier β)) (w : ω) (byValue : Bool) :
    List (Except Error (Reply κ t.Carrier β)) × (Cache ω κ t.Carrier × ω) :=
  runAll ops (create name (config.withStoreByValue byValue) (t.copy byValue) w)

/-- By value and by reference the replies are the same, and so are in the end the entries, the
counts and the world, whatever the loader, the writer, the listeners and the filters make of it when
they are called. -/
theorem runNew_storeByValue (t : ValueType) [DecidableEq t.Carrier] (name : String)
    (config : Configuration ω κ t.Carrier)
    (hloader : ∀ f ∈ config.loader, ∀ w, (f.create w).1.Brings (t.Fits true))
    (ops : List (Operation ω κ t.Carrier β)) (hops : ∀ op ∈ ops, op.Brings (t.Fits true)) (w : ω) :
    let run := Operation.runNew t name config ops w
    (run true).1 = (run false).1 ∧ (run true).2.2 = (run false).2.2 ∧
      (run true).2.1.entries = (run false).2.1.entries ∧ (run true).2.1.stats =
        (run false).2.1.stats := by
  intro run
  have hreference : t.copy false = .ok := by cases t <;> rfl
  obtain ⟨c, w', hcreate, hcreate', hc⟩ :=
    create_byReference name config (fun v hv => ValueType.copy_eq (t := t) hv) hloader w
  obtain ⟨rs, c', w'', hrun, hrun'⟩ := Operation.runAll_byReference ops hops hc w'
  have htrue : run true = (rs, (c', w'')) := by simp only [run, Operation.runNew, hcreate, hrun]
  have hfalse : run false = (rs, (c'.byReference, w'')) := by
    simp only [run, Operation.runNew, hreference, hcreate', hrun']
  rw [htrue, hfalse]
  exact ⟨rfl, rfl, rfl, rfl⟩

theorem runNew_storeByValue_noted :
    let load : String → Option String := fun k => if k = "b" then some "β" else none
    let ops : List (Operation (Notes String String) String String Unit) :=
      [.put "a" "α", .get "b", .invoke "a" (.value fun _ => .set "ω" (.done (.ok ()))), .remove "b",
        .getAll ["a", "b"]]
    let run := Operation.runNew .text "c" (Notes.configuration load true []) ops {}
    (run true).2.2.calls = [.write "a" "α", .write "a" "ω", .delete "b"] ∧
      (run true).1 = (run false).1 ∧ (run true).2.2 = (run false).2.2 ∧
        (run true).2.1.entries = (run false).2.1.entries ∧ (run true).2.1.stats =
          (run false).2.1.stats := by
  intro load ops
  have hload : ∀ {k w v}, (((Notes.loader load).load k).run w).1 = .ok v → ∀ x ∈ v,
      ValueType.text.Fits true x := by
    intro k w v hv x hx
    obtain rfl : load k = v := Except.ok.inj hv
    obtain ⟨-, rfl⟩ : k = "b" ∧ "β" = x := by simpa [load] using hx
    exact (by decide : "β".utf8ByteSize < UInt64.size)
  have hloader : ∀ f ∈ (Notes.configuration load true []).loader, ∀ w,
      (f.create w).1.Brings (ValueType.text.Fits true) := by
    rintro f ⟨⟩ w
    exact Loader.brings_loadEach hload
  have hops : ∀ op ∈ ops, op.Brings (ValueType.text.Fits true) := by
    simp [ops, Operation.Brings, Processor.Brings, ValueType.Fits]
    exact ⟨by decide, fun _ _ => by decide⟩
  exact ⟨by decide +kernel, runNew_storeByValue .text "c" (Notes.configuration load true []) hloader
    ops hops {}⟩

end EntryCache.Cache

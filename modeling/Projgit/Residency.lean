import Projgit.GitCli
import Projgit.Hydration
import Projgit.WarmTree

/-!
Every cached header belongs to a resident object. The store, the hydrating store over it
and the two fetchers of the daemon are verified method by method, as programs that run
among others: between any two actions another thread may have changed the caches, and the
disk may have gained objects. gix may fail at any time; its definite answers are right.
-/
namespace ProjgitStore
open Utf8Bytes ProjgitCaches Interleave
variable {ω τ α ε : Type}

/-- gix may fail, but what it says about presence is true. -/
structure Gix.Sees (G : Gix ω) (resident : ω → ObjectId → Prop) : Prop where
  object : ∀ w oid found, G.tryFindObject w oid = .ok found → (found.isSome ↔ resident w oid)
  header : ∀ w oid found, G.tryFindHeader w oid = .ok found → (found.isSome ↔ resident w oid)

/-- Objects only arrive, and in a strict store only resident objects have cached headers. -/
def storeDiscipline (resident : ω → ObjectId → Prop) (strict : Prop) : Discipline (Store ω) where
  inv s := strict → Cached s.headerCache.entries fun oid _ => resident s.world oid
  rely s t := ∀ oid, resident s.world oid → resident t.world oid
  refl _ _ here := here
  trans first second oid here := second oid (first oid here)

/-- The answer is `missingObject` only if the object was not there when the call began. -/
def NoFalseMiss (resident : τ → ObjectId → Prop) (oid : ObjectId) (s : τ)
    (r : Except ObjectStoreError α) : Prop :=
  ∀ o, r = .error (.missingObject o) → ¬ resident s oid

structure StoreHandle.Reports (h : StoreHandle (Prog τ)) (E : Discipline τ)
    (resident : τ → ObjectId → Prop) (strict : Prop) : Prop where
  contains : ∀ oid s, Ensures E (h.contains oid) s fun found t => found = true → resident t oid
  header : ∀ oid s, Ensures E (h.header oid).run s fun r t =>
    (strict → ∀ found, r = .ok found → resident t oid) ∧ NoFalseMiss resident oid s r
  putHeaderCache : ∀ oid kind size s, (strict → resident s oid) →
    Ensures E (h.putHeaderCache oid kind size) s fun _ _ => True
  readBlob : ∀ oid s, Ensures E (h.readBlob oid).run s fun r _ => NoFalseMiss resident oid s r
  readTree : ∀ oid s, Ensures E (h.readTree oid).run s fun r _ => NoFalseMiss resident oid s r

section
variable {G : Gix ω} {resident : ω → ObjectId → Prop} {strict : Prop} {s : Store ω}

theorem ensures_access (G : Gix ω) {f : Store ω → α × Store ω} {D : Discipline (Store ω)}
    {post : α → Store ω → Prop}
    (each : ∀ t, D.rely s t → D.inv t → D.rely t (f t).2 ∧ D.inv (f t).2 ∧
      ∀ v, D.rely (f t).2 v → D.inv v → post (f t).1 v) :
    Ensures D (G.access f : Prog (Store ω) α) s post := ensures_lift each

/-- A look at the disk: what it finds is resident, and what it misses was not. -/
theorem ensures_ask {question : ω → Except String (Option α)} {oid : ObjectId}
    (told : ∀ w found, question w = .ok found → (found.isSome ↔ resident w oid)) :
    Ensures (storeDiscipline resident strict)
      (G.ask question : ExceptT ObjectStoreError (Prog (Store ω)) (Option α)).run s fun r t =>
        (∀ a, r = .ok (some a) → resident t.world oid) ∧
          (r = .ok none → ¬ resident s.world oid) ∧
          ∀ o, r ≠ .error (.missingObject o) := by
  have asked : Ensures (storeDiscipline resident strict)
      (G.access (fun s => ((question s.world).mapError ObjectStoreError.backend, s)) :
        Prog (Store ω) (Except ObjectStoreError (Option α))) s fun r t =>
        (∀ a, r = .ok (some a) → resident t.world oid) ∧
          (r = .ok none → ¬ resident s.world oid) ∧
          ∀ o, r ≠ .error (.missingObject o) := by
    refine ensures_access G fun t later holds => ⟨fun _ here => here, holds, fun v next _ => ?_⟩
    rcases answered : question t.world with e | found
    · simp [Except.mapError]
    · have truth := told t.world found answered
      refine ⟨?_, ?_, by simp [Except.mapError]⟩
      · intro a same
        cases same
        exact next oid (truth.mp rfl)
      · intro same here
        cases same
        simpa using truth.mpr (later oid here)
  exact asked

theorem ensures_quiet (G : Gix ω) {f : Store ω → α × Store ω}
    (world : ∀ t, (f t).2.world = t.world)
    (headers : ∀ t, (f t).2.headerCache.entries = t.headerCache.entries) :
    Ensures (storeDiscipline resident strict) (G.access f : Prog (Store ω) α) s
      fun _ _ => True := by
  refine ensures_access G fun t later holds => ⟨?_, ?_, fun v _ _ => trivial⟩
  · intro oid here
    rwa [world]
  · intro strictly
    rw [headers, world]
    exact holds strictly

theorem findKind_ensures (sees : G.Sees resident) (expected : ObjectKind) (oid : ObjectId)
    (s : Store ω) :
    Ensures (storeDiscipline resident strict)
      (ObjectStore.findKind G expected oid : ExceptT _ (Prog (Store ω)) Object).run s
      fun r _ => NoFalseMiss (fun s : Store ω => resident s.world) oid s r := by
  unfold ObjectStore.findKind
  refine (ensures_ask fun w found => sees.object w oid found).runBind ?_ ?_
  · rintro e t - - ⟨-, -, backend⟩ o same
    cases same
    exact absurd rfl (backend o)
  · intro found t _ _ given
    obtain ⟨-, absent, -⟩ := given
    cases found with
    | none =>
      exact ensures_ret fun u _ _ o _ => absent rfl
    | some obj =>
      dsimp only
      split
      · exact ensures_ret fun u _ _ o same => nomatch same
      · exact ensures_ret fun u _ _ o same => nomatch same

theorem parse_ensures (G : Gix ω) (data : Bytes) (s : Store ω) :
    Ensures (storeDiscipline resident strict)
      (ExceptT.mk (pure (ObjectStore.parseTree G data)) : ExceptT _ (Prog (Store ω)) _).run s
      fun r _ => ∀ o, r ≠ .error (.missingObject o) := by
  refine ensures_ret fun _ _ _ o same => ?_
  have there := parseTree_there G data
  rw [same] at there
  cases there

theorem getHeader_ensures (G : Gix ω) (oid : ObjectId) (s : Store ω) :
    Ensures (storeDiscipline resident strict)
      (G.access (Store.getHeader oid) : Prog (Store ω) _) s
      fun hit t => strict → hit.isSome → resident t.world oid := by
  refine ensures_access G fun t later holds => ⟨fun _ here => here, ?_, fun v next _ => ?_⟩
  · exact fun strictly => Lru.get_cached (holds strictly) oid
  · intro strictly hit
    obtain ⟨found, cached⟩ := Option.isSome_iff_exists.mp hit
    rw [show (Store.getHeader oid t).1 = _ from Lru.get_value oid t.headerCache] at cached
    obtain ⟨e, entry, -⟩ := Option.map_eq_some_iff.mp cached
    exact next oid (holds strictly oid e entry)

theorem putHeader_ensures (G : Gix ω) (oid : ObjectId) (found : ObjectKind × Nat) (s : Store ω)
    (present : strict → resident s.world oid) :
    Ensures (storeDiscipline resident strict)
      (G.access (Store.putHeader oid found) : Prog (Store ω) Unit) s fun _ _ => True := by
  refine ensures_access G fun t later holds => ⟨fun _ here => here, ?_, fun _ _ _ => trivial⟩
  intro strictly
  exact Lru.put_cached (holds strictly) (later oid (present strictly))

theorem header_ensures (sees : G.Sees resident) (oid : ObjectId) (s : Store ω) :
    Ensures (storeDiscipline resident strict)
      (ObjectStore.header G oid : ExceptT _ (Prog (Store ω)) _).run s fun r t =>
        (strict → ∀ found, r = .ok found → resident t.world oid) ∧
          NoFalseMiss (fun s : Store ω => resident s.world) oid s r := by
  unfold ObjectStore.header
  apply (getHeader_ensures G oid s).runLift
  intro hit t first _ known
  cases hit with
  | none =>
    refine (ensures_quiet G (fun _ => rfl) fun _ => rfl).runLift fun _ u second _ _ => ?_
    refine (ensures_ask fun w found => sees.header w oid found).runBind ?_ ?_
    · intro e v _ _ given
      obtain ⟨-, -, backend⟩ := given
      refine ⟨fun _ _ same => (nomatch same), fun o same => ?_⟩
      cases same
      exact absurd rfl (backend o)
    · rintro (_ | found) v - - ⟨present, absent, -⟩
      · refine ensures_ret fun _ _ _ => ⟨fun _ _ same => (nomatch same), fun _ _ here => ?_⟩
        exact absent rfl (second oid (first oid here))
      · have here := present found rfl
        refine (putHeader_ensures G oid found v fun _ => here).runLift fun _ x third _ _ => ?_
        refine ensures_ret fun y fourth _ => ⟨fun _ _ _ => ?_, fun _ same => nomatch same⟩
        exact fourth oid (third oid here)
  | some found =>
    refine ensures_ret fun u next _ => ⟨fun strictly _ _ => ?_, fun _ same => nomatch same⟩
    exact next oid (known strictly rfl)

theorem readBlob_ensures (sees : G.Sees resident) (oid : ObjectId) (s : Store ω) :
    Ensures (storeDiscipline resident strict)
      (ObjectStore.readBlob G oid : ExceptT _ (Prog (Store ω)) _).run s
      fun r _ => NoFalseMiss (fun s : Store ω => resident s.world) oid s r := by
  unfold ObjectStore.readBlob
  apply (ensures_quiet G (fun _ => rfl) fun _ => rfl).runLift
  intro hit t first _ _
  cases hit with
  | none =>
    refine (ensures_quiet G (fun _ => rfl) fun _ => rfl).runLift fun _ u second _ _ => ?_
    refine (findKind_ensures sees .blob oid u).runBind ?_ ?_
    · intro e v _ _ missed o same here
      cases same
      exact missed o rfl (second oid (first oid here))
    · intro obj v _ _ _
      refine (ensures_quiet G (fun _ => rfl) fun _ => rfl).runLift fun _ x _ _ _ => ?_
      exact ensures_ret fun _ _ _ _ same => nomatch same
  | some cached =>
    exact ensures_ret fun _ _ _ _ same => nomatch same

theorem readTree_ensures (sees : G.Sees resident) (oid : ObjectId) (s : Store ω) :
    Ensures (storeDiscipline resident strict)
      (ObjectStore.readTree G oid : ExceptT _ (Prog (Store ω)) _).run s
      fun r _ => NoFalseMiss (fun s : Store ω => resident s.world) oid s r := by
  unfold ObjectStore.readTree
  apply (ensures_quiet G (fun _ => rfl) fun _ => rfl).runLift
  intro hit t first _ _
  cases hit with
  | none =>
    refine (ensures_quiet G (fun _ => rfl) fun _ => rfl).runLift fun _ u second _ _ => ?_
    refine (findKind_ensures sees .tree oid u).runBind ?_ ?_
    · intro e v _ _ missed o same here
      cases same
      exact missed o rfl (second oid (first oid here))
    · intro obj v _ _ _
      refine (parse_ensures G obj.data v).runBind ?_ ?_
      · intro e x _ _ backend o same
        cases same
        exact absurd rfl (backend o)
      · intro out x _ _ _
        refine (ensures_quiet G (fun _ => rfl) fun _ => rfl).runLift fun _ y _ _ _ => ?_
        exact ensures_ret fun _ _ _ _ same => nomatch same
  | some cached =>
    exact ensures_ret fun _ _ _ _ same => nomatch same

theorem handle_reports (sees : G.Sees resident) :
    (G.handle : StoreHandle (Prog (Store ω))).Reports (storeDiscipline resident strict)
      (fun s => resident s.world) strict where
  contains oid s := by
    refine ensures_access G fun t later holds => ⟨fun _ here => here, holds, fun v next _ => ?_⟩
    intro found
    rcases answered : G.tryFindObject t.world oid with e | object
    · simp [answered] at found
    · simp only [answered] at found
      exact next oid ((sees.object t.world oid object answered).mp found)
  header := header_ensures sees
  putHeaderCache oid kind size s present := putHeader_ensures G oid (kind, size) s present
  readBlob := readBlob_ensures sees
  readTree := readTree_ensures sees

end

theorem StoreHandle.Reports.zoom {σ : Type} {D : Discipline σ} {E : Discipline τ} {get : τ → σ}
    {set : τ → σ → τ} {resident : σ → ObjectId → Prop} {strict : Prop} {h : StoreHandle (Prog σ)}
    (reports : h.Reports D resident strict) (focus : Focus D E get set) :
    (h.zoom get set).Reports E (fun t => resident (get t)) strict where
  contains oid t := (reports.contains oid (get t)).zoom focus
  header oid t := (reports.header oid (get t)).zoom focus
  putHeaderCache oid kind size t present :=
    (reports.putHeaderCache oid kind size (get t) present).zoom focus
  readBlob oid t := (reports.readBlob oid (get t)).zoom focus
  readTree oid t := (reports.readTree oid (get t)).zoom focus

/-- What a fetcher owes its callers: `Ok` means resident, in a strict store a probe carries
    headers of resident objects only, and its errors are `plain`. -/
structure Fetcher.Delivers (F : Fetcher (Prog τ)) (E : Discipline τ)
    (resident : τ → ObjectId → Prop) (strict : Prop) (plain : FetcherError → Prop) : Prop where
  fetchObject : ∀ oid s, Ensures E (F.fetchObject oid).run s fun r t =>
    (r = .ok () → resident t oid) ∧ ∀ e, r = .error e → plain e
  prefetchHeaders : ∀ oids s, Ensures E (F.prefetchHeaders oids) s fun probes t =>
    strict → ∀ p ∈ probes, p.carried.isSome → resident t p.oid
  fetchObjects : ∀ oids s, Ensures E (F.fetchObjects oids) s fun probes t =>
    strict → ∀ p ∈ probes, p.carried.isSome → resident t p.oid

theorem Fetcher.Delivers.zoom {σ : Type} {D : Discipline σ} {E : Discipline τ} {get : τ → σ}
    {set : τ → σ → τ} {resident : σ → ObjectId → Prop} {strict : Prop}
    {plain : FetcherError → Prop} {F : Fetcher (Prog σ)}
    (delivers : F.Delivers D resident strict plain) (focus : Focus D E get set) :
    (F.zoom get set).Delivers E (fun t => resident (get t)) strict plain where
  fetchObject oid t := (delivers.fetchObject oid (get t)).zoom focus
  prefetchHeaders oids t := (delivers.prefetchHeaders oids (get t)).zoom focus
  fetchObjects oids t := (delivers.fetchObjects oids (get t)).zoom focus

theorem fetchEach_bare {E : Discipline τ} {fetchObject : ObjectId → ExceptT FetcherError (Prog τ) Unit}
    (each : ∀ oid, Respects E (fetchObject oid).run) (oids : List ObjectId) (s : τ) :
    Ensures E (fetchEach fetchObject oids) s fun probes _ => ∀ p ∈ probes, p.carried = none := by
  induction oids generalizing s with
  | nil => exact ensures_ret fun _ _ _ _ member => absurd member List.not_mem_nil
  | cons oid rest ih =>
    rw [fetchEach_cons]
    have probed : Ensures E (probeByFetch fetchObject oid) s fun p _ => p.carried = none := by
      unfold probeByFetch
      apply (each oid s).bind
      rintro (e | _) t - - - <;> exact ensures_ret fun _ _ _ => rfl
    refine probed.bind fun p t _ _ bare => (ih t).bind fun more u _ _ rest => ?_
    refine ensures_ret fun _ _ _ q member => ?_
    rcases List.mem_cons.mp member with rfl | later
    · exact bare
    · exact rest q later

theorem noop_delivers {E : Discipline τ} {resident : τ → ObjectId → Prop} {strict : Prop} :
    (NoopFetcher : Fetcher (Prog τ)).Delivers E resident strict fun _ => True := by
  have bare : ∀ oids s, Ensures E ((NoopFetcher : Fetcher (Prog τ)).prefetchHeaders oids) s
      fun probes t => strict → ∀ p ∈ probes, p.carried.isSome → resident t p.oid := by
    intro oids s
    apply (fetchEach_bare (fun _ => respects_pure _) oids s).mono
    intro probes t _ _ bare _ p member carried
    rw [bare p member] at carried
    cases carried
  exact ⟨fun _ _ => ensures_ret fun _ _ _ => ⟨fun same => (nomatch same), fun _ _ => trivial⟩,
    bare, bare⟩

structure HydratingObjectStore.Grounded (H : HydratingObjectStore (Prog τ)) (E : Discipline τ)
    (resident : τ → ObjectId → Prop) (strict : Prop) (plain : FetcherError → Prop) : Prop where
  grows : ∀ s t oid, E.rely s t → resident s oid → resident t oid
  store : H.store.Reports E resident strict
  fetcher : H.fetcher.Delivers E resident strict plain

namespace HydratingObjectStore
variable {H : HydratingObjectStore (Prog τ)} {E : Discipline τ}
  {resident : τ → ObjectId → Prop} {strict : Prop} {plain : FetcherError → Prop} {s : τ}

/-- A fetch that succeeded leaves nothing for the retry to miss: every fetcher error is one
    that the fetcher itself reported. -/
theorem hydrate_ensures (grounded : H.Grounded E resident strict plain)
    {read : ObjectId → ExceptT ObjectStoreError (Prog τ) α} {good : α → τ → Prop} (oid : ObjectId)
    (reads : ∀ s, Ensures E (read oid).run s fun r t =>
      (∀ a, r = .ok a → good a t) ∧ NoFalseMiss resident oid s r) :
    Ensures E (H.hydrateOnMiss read oid).run s fun r t =>
      (∀ a, r = .ok a → good a t) ∧ ∀ e, r = .error (.fetcher e) → plain e := by
  unfold hydrateOnMiss
  apply (reads s).stable.runLift
  intro result t first holds known
  cases result with
  | error e =>
    cases e with
    | missingObject o =>
      have asked : Ensures E (ExceptT.adapt HydrateError.fetcher (H.fetcher.fetchObject oid)).run t
          fun r u => (r = .ok () → resident u oid) ∧ ∀ e, r = .error (.fetcher e) → plain e := by
        apply (grounded.fetcher.fetchObject oid t).runAdapt HydrateError.fetcher
        rintro (e | _) u - - ⟨landed, told⟩
        · refine ⟨fun same => (nomatch same), fun e' same => ?_⟩
          cases same
          exact told e rfl
        · exact ⟨fun _ => landed rfl, fun _ same => (nomatch same)⟩
      refine asked.runBind ?_ ?_
      · intro e u _ _ given
        obtain ⟨-, told⟩ := given
        refine ⟨fun _ same => (nomatch same), fun e' same => ?_⟩
        cases same
        exact told e' rfl
      · rintro ⟨⟩ u - - ⟨landed, -⟩
        apply (reads u).runAdapt absentAfterFetch
        rintro (e | a) v - - ⟨right, missed⟩
        · refine ⟨fun _ same => (nomatch same), fun e' same => ?_⟩
          cases e with
          | missingObject o => exact absurd (landed rfl) (missed o rfl)
          | _ => cases same
        · refine ⟨fun b same => ?_, fun _ same => (nomatch same)⟩
          cases same
          exact right a rfl
    | _ =>
      refine ensures_ret fun _ _ _ => ⟨fun _ same => (nomatch same), fun e same => ?_⟩
      cases same
  | ok a =>
    refine ensures_ret fun u next still => ⟨fun b same => ?_, fun _ same => (nomatch same)⟩
    cases same
    exact (known u next still).1 a rfl

theorem reads_any {read : ObjectId → ExceptT ObjectStoreError (Prog τ) α} {oid : ObjectId}
    (reads : ∀ s, Ensures E (read oid).run s fun r _ => NoFalseMiss resident oid s r) (s : τ) :
    Ensures E (read oid).run s fun r t =>
      (∀ a, r = .ok a → (fun _ _ => True) a t) ∧ NoFalseMiss resident oid s r :=
  (reads s).mono fun _ _ _ _ known => ⟨fun _ _ => trivial, known⟩

theorem readBlob_plain (grounded : H.Grounded E resident strict plain) (oid : ObjectId) :
    Ensures E (H.readBlob oid).run s fun r _ => ∀ e, r = .error (.fetcher e) → plain e :=
  (hydrate_ensures grounded oid (reads_any (grounded.store.readBlob oid))).mono
    fun _ _ _ _ known => known.2

theorem readTree_plain (grounded : H.Grounded E resident strict plain) (oid : ObjectId) :
    Ensures E (H.readTree oid).run s fun r _ => ∀ e, r = .error (.fetcher e) → plain e :=
  (hydrate_ensures grounded oid (reads_any (grounded.store.readTree oid))).mono
    fun _ _ _ _ known => known.2

theorem header_plain (grounded : H.Grounded E resident strict plain) (oid : ObjectId) :
    Ensures E (H.header oid).run s fun r t =>
      (strict → ∀ found, r = .ok found → resident t oid) ∧
        ∀ e, r = .error (.fetcher e) → plain e := by
  have reads : ∀ s, Ensures E (H.store.header oid).run s fun r t =>
      (∀ found, r = .ok found → (fun _ t => strict → resident t oid) found t) ∧
        NoFalseMiss resident oid s r :=
    fun s => (grounded.store.header oid s).mono fun r t _ _ known =>
      ⟨fun found same strictly => known.1 strictly found same, known.2⟩
  exact (hydrate_ensures grounded oid reads).mono fun r t _ _ known =>
    ⟨fun strictly found same => known.1 found same strictly, known.2⟩

theorem pending_respects {absent : ObjectId → Prog τ Bool}
    (tested : ∀ oid, Respects E (absent oid)) (oids : List ObjectId) :
    Respects E (pending absent oids) := by
  induction oids with
  | nil => exact respects_pure _
  | cons oid rest ih =>
    refine (tested oid).bind fun missing => ih.bind fun more => ?_
    exact respects_pure _

theorem publishProbe_ensures (grounded : H.Grounded E resident strict plain) (p : HeaderProbe)
    (s : τ) (present : strict → p.carried.isSome → resident s p.oid) :
    Ensures E (H.publishProbe p) s fun _ _ => True := by
  cases p with
  | present oid =>
    refine (grounded.store.header oid s).bind fun r t _ _ _ => ?_
    exact respects_pure _ t
  | presentWithHeader oid kind size =>
    exact grounded.store.putHeaderCache oid kind size s fun strictly => present strictly rfl
  | headerOnly oid kind size =>
    exact grounded.store.putHeaderCache oid kind size s fun strictly => present strictly rfl
  | error oid e => exact respects_pure _ s

theorem publishProbes_ensures (grounded : H.Grounded E resident strict plain)
    (probes : List HeaderProbe) (s : τ)
    (present : strict → ∀ p ∈ probes, p.carried.isSome → resident s p.oid) :
    Ensures E (H.publishProbes probes) s fun _ _ => True := by
  induction probes generalizing s with
  | nil => exact respects_pure _ s
  | cons p rest ih =>
    refine (publishProbe_ensures grounded p s fun strictly carried =>
      present strictly p (by simp) carried).bind fun _ t later _ _ => ih t ?_
    intro strictly q member carried
    exact grounded.grows s t q.oid later (present strictly q (by simp [member]) carried)

theorem batch_respects (grounded : H.Grounded E resident strict plain)
    {absent : ObjectId → Prog τ Bool} {ask : List ObjectId → Prog τ (List HeaderProbe)}
    (tested : ∀ oid, Respects E (absent oid))
    (asked : ∀ oids s, Ensures E (ask oids) s fun probes t =>
      strict → ∀ p ∈ probes, p.carried.isSome → resident t p.oid) (oids : List ObjectId) :
    Respects E (H.batch absent ask oids) := by
  refine (pending_respects tested oids).bind fun query => ?_
  split
  · exact respects_pure _
  · intro s
    refine (asked query s).bind fun probes t _ _ present => ?_
    refine (publishProbes_ensures grounded probes t present).bind fun _ u _ _ _ => ?_
    exact respects_pure _ u

theorem prefetchHeaders_respects (grounded : H.Grounded E resident strict plain)
    (oids : List ObjectId) : Respects E (H.prefetchHeaders oids) := by
  refine batch_respects grounded (fun oid => ?_) grounded.fetcher.prefetchHeaders oids
  exact (respects_of_ensures (grounded.store.header oid)).bind fun _ => respects_pure _

theorem fetchObjects_respects (grounded : H.Grounded E resident strict plain)
    (oids : List ObjectId) : Respects E (H.fetchObjects oids) := by
  unfold fetchObjects
  split
  · exact respects_pure _
  · refine batch_respects grounded (fun oid => ?_) grounded.fetcher.fetchObjects oids
    exact (respects_of_ensures (grounded.store.contains oid)).bind fun _ => respects_pure _

theorem readTree_respects (grounded : H.Grounded E resident strict plain) (oid : ObjectId) :
    Respects E (H.readTree oid).run :=
  respects_of_ensures fun _ => readTree_plain grounded oid

theorem warmLevel_respects (grounded : H.Grounded E resident strict plain)
    (frontier next visited : List ObjectId) (stats : WarmTreeStats) :
    Respects E (H.warmLevel frontier next visited stats) := by
  induction frontier generalizing next visited stats with
  | nil => exact respects_pure _
  | cons tree rest ih =>
    apply (readTree_respects grounded tree).bind
    intro r
    cases r with
    | error e =>
      exact ih _ _ _
    | ok entries =>
      exact ih _ _ _

theorem warmFrom_respects (grounded : H.Grounded E resident strict plain) (rounds : Nat)
    (frontier visited : List ObjectId) (stats : WarmTreeStats) :
    Respects E (H.warmFrom rounds frontier visited stats) := by
  induction rounds generalizing frontier visited stats with
  | zero => exact respects_pure _
  | succ rounds ih =>
    apply (warmLevel_respects grounded frontier [] visited _).bind
    rintro ⟨next, visited', stats'⟩
    dsimp only
    split
    · exact respects_pure _
    · exact (fetchObjects_respects grounded next).bind fun _ => ih next visited' stats'

theorem warmTreeClosure_respects (grounded : H.Grounded E resident strict plain)
    (rootTree : ObjectId) : Respects E (H.warmTreeClosure rootTree) :=
  (fetchObjects_respects grounded [rootTree]).bind fun _ => warmFrom_respects grounded _ _ _ _

end HydratingObjectStore
end ProjgitStore

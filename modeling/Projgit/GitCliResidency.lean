import Projgit.Residency
import Projgit.SingleFlight

/-!
`GitCliFetcher` delivers: whatever the children reply and however its calls interleave,
`Ok` from `fetch_object` means that the object is resident, and a probe carries a header
only of a resident object. A follower learns this from the coalescer: the key and the slot
of a call never change, and a leader finishes with `Ok` only once its key is resident.
-/
namespace ProjgitGitCli
open ProjgitStore ProjgitCaches ProjgitCoalesce Interleave
variable {ω α : Type}

/-- Every leader that computed `Ok` did so for a resident key. -/
def Earned (resident : ObjectId → Prop) (m : Machine ObjectId Unit) : Prop :=
  ∀ d key slot, (m.calls d).led = some (key, slot) → (m.calls d).computed = some (.ok ()) →
    resident key

theorem new_earned (resident : ObjectId → Prop) : Earned resident .new := by
  intro d key slot led
  simp [Machine.new, Phase.led] at led

theorem step_earned {resident : ObjectId → Prop} {m t : Machine ObjectId Unit}
    {a : Action ObjectId Unit} (taken : step m a = some t) (earned : Earned resident m)
    (finishes : ∀ c key slot, a = .finish c (.ok ()) → (m.calls c).bound = some (key, slot) →
      resident key) : Earned resident t := by
  intro d key slot led computed
  have move := step_move taken
  rcases (move_computed move d _).mp computed with before | rfl
  · rcases move_led move led with same | ⟨rfl, -⟩
    · exact earned d key slot same before
    · cases move with
      | join _ _ _ fresh => simp [fresh, Phase.computed] at before
      | lead _ _ fresh => simp [fresh, Phase.computed] at before
  · rcases move_led move led with same | ⟨started, -⟩
    · exact finishes d key slot rfl (bound_of_led same)
    · cases started

theorem Earned.resident_of_done {resident : ObjectId → Prop} {m : Machine ObjectId Unit}
    (earned : Earned resident m) (inv : Inv m) {c : CallId} {key : ObjectId} {slot : SlotId}
    (bound : (m.calls c).bound = some (key, slot))
    (done : m.coalescer.slots slot = .done (.ok ())) : resident key := by
  obtain ⟨-, d, led⟩ := inv.installed c key slot bound
  exact earned d key slot led (inv.leader_computed led done)

/-- The state the callers of one fetcher share is in order. -/
structure Vouched (resident : ω → ObjectId → Prop) (s : GitCli ω) : Prop where
  headers : Cached s.store.headerCache.entries fun oid _ => resident s.store.world oid
  machine : Inv s.coalescer
  earned : Earned (resident s.store.world) s.coalescer

/-- Objects only arrive, and a call stays with its key and slot. -/
structure Later (resident : ω → ObjectId → Prop) (s t : GitCli ω) : Prop where
  grows : ∀ oid, resident s.store.world oid → resident t.store.world oid
  bound : ∀ c at_, (s.coalescer.calls c).bound = some at_ → (t.coalescer.calls c).bound = some at_

def cliDiscipline (resident : ω → ObjectId → Prop) : Discipline (GitCli ω) where
  inv := Vouched resident
  rely := Later resident
  refl _ := ⟨fun _ here => here, fun _ _ bound => bound⟩
  trans first second :=
    ⟨fun oid here => second.grows oid (first.grows oid here),
      fun c at_ bound => second.bound c at_ (first.bound c at_ bound)⟩

/-- No operation on a child removes an object. -/
structure CatFile.Keeps (cat : CatFile ω) (resident : ω → ObjectId → Prop) : Prop where
  spawn : ∀ w oid, resident w oid → resident (cat.spawn w).2 oid
  writeLine : ∀ child line w oid, resident w oid → resident (cat.writeLine child line w).2 oid
  flush : ∀ child w oid, resident w oid → resident (cat.flush child w).2 oid
  readLine : ∀ child w oid, resident w oid → resident (cat.readLine child w).2 oid
  reap : ∀ child w oid, resident w oid → resident (cat.reap child w).2 oid

section
variable {resident : ω → ObjectId → Prop} {cat : CatFile ω} {G : Gix ω} {s : GitCli ω}

theorem store_focus :
    Focus (storeDiscipline resident True) (cliDiscipline resident) GitCli.store
      GitCli.setStore where
  get_set _ _ := rfl
  rely _ _ later := later.grows
  inv _ vouched _ := vouched.headers
  put _ _ vouched grows headers :=
    ⟨⟨grows, fun _ _ bound => bound⟩, headers trivial, vouched.machine,
      fun d key slot led computed => grows key (vouched.earned d key slot led computed)⟩

theorem theStore_reports (sees : G.Sees resident) :
    (theStore G).Reports (cliDiscipline resident) (fun s => resident s.store.world) True :=
  (handle_reports sees).zoom store_focus

theorem setWorld_vouched {w : ω} (vouched : Vouched resident s)
    (grows : ∀ oid, resident s.store.world oid → resident w oid) :
    Later resident s (s.setWorld w) ∧ Vouched resident (s.setWorld w) :=
  ⟨⟨grows, fun _ _ bound => bound⟩,
    fun oid e entry => grows oid (vouched.headers oid e entry), vouched.machine,
    fun d key slot led computed => grows key (vouched.earned d key slot led computed)⟩

theorem respects_system {op : ω → α × ω}
    (keeps : ∀ w oid, resident w oid → resident (op w).2 oid) :
    Respects (cliDiscipline resident) (system op) := by
  refine fun s => ensures_await fun t later vouched a u ran => ?_
  cases ran
  obtain ⟨moved, kept⟩ := setWorld_vouched vouched (keeps t.store.world)
  exact ⟨moved, kept, fun _ _ _ => trivial⟩

theorem respects_local {act : GitCli ω → Option (α × GitCli ω)}
    (store : ∀ s a t, act s = some (a, t) → t.store = s.store)
    (coalescer : ∀ s a t, act s = some (a, t) → t.coalescer = s.coalescer) :
    Respects (cliDiscipline resident) (await act) := by
  refine fun s => ensures_await fun t later vouched a u ran => ?_
  have sameStore := store t a u ran
  have sameCalls := coalescer t a u ran
  refine ⟨⟨fun oid here => ?_, fun c at_ bound => ?_⟩, ?_, fun _ _ _ => trivial⟩
  · rwa [sameStore]
  · rwa [sameCalls]
  · constructor
    · rw [sameStore]
      exact vouched.headers
    · rw [sameCalls]
      exact vouched.machine
    · rw [sameStore, sameCalls]
      exact vouched.earned

namespace BatchChild

theorem readLine_respects (keeps : cat.Keeps resident) (closed : String) (child : Nat) :
    Respects (cliDiscipline resident) (readLine cat closed child).run := by
  have read : Respects (cliDiscipline resident) (pipe (cat.readLine child)).run :=
    respects_system (keeps.readLine child)
  refine read.runBind fun line => ?_
  split
  · exact respects_pure _
  · exact respects_pure _

theorem query_respects (keeps : cat.Keeps resident) (oid : ObjectId) (child : Nat) :
    Respects (cliDiscipline resident) (query cat oid child).run := by
  have written : Respects (cliDiscipline resident) (pipe (cat.writeLine child oid.toHex)).run :=
    respects_system (keeps.writeLine child oid.toHex)
  have flushed : Respects (cliDiscipline resident) (pipe (cat.flush child)).run :=
    respects_system (keeps.flush child)
  exact written.runBind fun _ => flushed.runBind fun _ => readLine_respects keeps _ child

theorem writeAll_respects (keeps : cat.Keeps resident) (child : Nat) (oids : List ObjectId) :
    Respects (cliDiscipline resident) (writeAll cat child oids).run := by
  induction oids with
  | nil => exact respects_pure _
  | cons oid rest ih =>
    have written : Respects (cliDiscipline resident) (pipe (cat.writeLine child oid.toHex)).run :=
      respects_system (keeps.writeLine child oid.toHex)
    exact written.runBind fun _ => ih

theorem readAll_respects (keeps : cat.Keeps resident) (child : Nat) (oids : List ObjectId) :
    Respects (cliDiscipline resident) (readAll cat child oids).run := by
  induction oids with
  | nil => exact respects_pure _
  | cons oid rest ih =>
    exact (readLine_respects keeps _ child).runBind fun line =>
      ih.runBind fun more => respects_pure _

theorem queryBatch_respects (keeps : cat.Keeps resident) (oids : List ObjectId) (child : Nat) :
    Respects (cliDiscipline resident) (queryBatch cat oids child).run := by
  have flushed : Respects (cliDiscipline resident) (pipe (cat.flush child)).run :=
    respects_system (keeps.flush child)
  exact (writeAll_respects keeps child oids).runBind fun _ =>
    flushed.runBind fun _ => readAll_respects keeps child oids

end BatchChild

namespace BatchChildPool

theorem tryLock_respects (i : Nat) :
    Respects (cliDiscipline resident) (tryLock i : Prog (GitCli ω) Bool) := by
  refine respects_local ?_ ?_ <;> intro s a t ran <;> split at ran <;> cases ran <;> rfl

theorem lock_respects (i : Nat) :
    Respects (cliDiscipline resident) (lock i : Prog (GitCli ω) Unit) := by
  refine respects_local ?_ ?_ <;> intro s a t ran <;> split at ran <;> cases ran <;> rfl

theorem firstFree_respects (order : List Nat) :
    Respects (cliDiscipline resident) (firstFree order : Prog (GitCli ω) (Option Nat)) := by
  induction order with
  | nil => exact respects_pure _
  | cons i rest ih =>
    refine (tryLock_respects i).bind fun free => ?_
    split
    · exact respects_pure _
    · exact ih

theorem acquire_respects : Respects (cliDiscipline resident) (acquire : Prog (GitCli ω) Nat) := by
  have advanced : Respects (cliDiscipline resident) (advance : Prog (GitCli ω) (Nat × Nat)) := by
    refine respects_local ?_ ?_ <;> intro s a t ran <;> cases ran <;> rfl
  apply advanced.bind
  rintro ⟨n, start⟩
  apply (firstFree_respects _).bind
  intro free
  cases free with
  | none =>
    exact (lock_respects start).bind fun _ => respects_pure _
  | some i =>
    exact respects_pure _

theorem childOf_respects (i : Nat) :
    Respects (cliDiscipline resident) (childOf i : Prog (GitCli ω) (Option Nat)) := by
  refine respects_local ?_ ?_ <;> intro s a t ran <;> cases ran <;> rfl

theorem setChild_respects (i : Nat) (child : Option Nat) :
    Respects (cliDiscipline resident) (setChild i child : Prog (GitCli ω) Unit) := by
  refine respects_local ?_ ?_ <;> intro s a t ran <;> cases ran <;> rfl

theorem release_respects (i : Nat) :
    Respects (cliDiscipline resident) (release i : Prog (GitCli ω) Unit) := by
  refine respects_local ?_ ?_ <;> intro s a t ran <;> cases ran <;> rfl

theorem liveChild_respects (keeps : cat.Keeps resident) (i : Nat) :
    Respects (cliDiscipline resident) (liveChild cat i).run := by
  apply (childOf_respects i).runLift
  intro live
  cases live with
  | none =>
    have spawned : Respects (cliDiscipline resident) (pipe cat.spawn).run :=
      respects_system keeps.spawn
    exact spawned.runBind fun child =>
      (setChild_respects i (some child)).runLift fun _ => respects_pure _
  | some child =>
    exact respects_pure _

theorem withChild_respects (keeps : cat.Keeps resident) (i : Nat)
    {f : Nat → ExceptT String (Prog (GitCli ω)) α}
    (work : ∀ child, Respects (cliDiscipline resident) (f child).run) :
    Respects (cliDiscipline resident) (withChild cat i f).run := by
  refine (liveChild_respects keeps i).runBind fun child => ?_
  exact (work child).bind fun r => respects_pure _

theorem reset_respects (keeps : cat.Keeps resident) (i : Nat) :
    Respects (cliDiscipline resident) (reset cat i) := by
  apply (childOf_respects i).bind
  intro live
  cases live with
  | none =>
    exact respects_pure _
  | some child =>
    exact (respects_system (keeps.reap child)).bind fun _ => setChild_respects i none

end BatchChildPool

theorem classify_ensures (sees : G.Sees resident) (oid : ObjectId) (line : String)
    (s : GitCli ω) :
    Ensures (cliDiscipline resident) (classify cat G oid line).run s
      fun r t => r = .ok () → resident t.store.world oid := by
  have parsed : Respects (cliDiscipline resident)
      (ExceptT.mk (pure (parseLine cat oid line)) :
        ExceptT FetcherError (Prog (GitCli ω)) ParsedResponse).run := respects_pure _
  apply (parsed s).runBind (fun _ _ _ _ _ same => (nomatch same))
  rintro (⟨kind, size⟩ | _) t - - -
  · refine ((theStore_reports sees).contains oid t).runLift fun found u _ _ present => ?_
    split
    · rename_i here
      exact ensures_ret fun v next _ _ => next.grows oid (present here)
    · exact ensures_ret fun _ _ _ same => (nomatch same)
  · exact ensures_ret fun _ _ _ same => (nomatch same)

theorem rawFetchFrom_ensures (sees : G.Sees resident) (keeps : cat.Keeps resident) (oid : ObjectId)
    (attempts : Nat) (lastIoErr : Option String) (s : GitCli ω) :
    Ensures (cliDiscipline resident) (rawFetchFrom cat G oid attempts lastIoErr).run s
      fun r t => r = .ok () → resident t.store.world oid := by
  induction attempts generalizing lastIoErr s with
  | zero => exact ensures_ret fun _ _ _ same => (nomatch same)
  | succ attempts ih =>
    refine (BatchChildPool.acquire_respects s).runLift fun slot t _ _ _ => ?_
    refine ((theStore_reports sees).contains oid t).runLift fun found u _ _ present => ?_
    split
    · rename_i here
      refine (BatchChildPool.release_respects slot u).runLift fun _ v later _ _ => ?_
      exact ensures_ret fun x next _ _ => next.grows oid (later.grows oid (present here))
    · have asked := BatchChildPool.withChild_respects keeps slot
        (BatchChild.query_respects keeps oid)
      apply (asked u).runLift
      rintro (spawnErr | e | line) v - - -
      · refine (BatchChildPool.release_respects slot v).runLift fun _ x _ _ _ => ?_
        exact ensures_ret fun _ _ _ same => (nomatch same)
      · refine (BatchChildPool.reset_respects keeps slot v).runLift fun _ x _ _ _ => ?_
        refine (BatchChildPool.release_respects slot x).runLift fun _ y _ _ _ => ?_
        exact ih (some e) y
      · refine (BatchChildPool.release_respects slot v).runLift fun _ x _ _ _ => ?_
        exact classify_ensures sees oid line x

theorem coalescer_step {t : GitCli ω} (vouched : Vouched resident t) {a : Action ObjectId Unit}
    {next : Machine ObjectId Unit} (taken : step t.coalescer a = some next)
    (finishes : ∀ c key slot, a = .finish c (.ok ()) →
      (t.coalescer.calls c).bound = some (key, slot) → resident t.store.world key)
    (u : GitCli ω) (store : u.store = t.store) (coalescer : u.coalescer = next) :
    Later resident t u ∧ Vouched resident u := by
  subst coalescer
  refine ⟨⟨fun oid here => ?_, fun c at_ => move_bound (step_move taken)⟩, ?_, ?_, ?_⟩
  · rwa [store]
  · rw [store]
    exact vouched.headers
  · exact move_inv vouched.machine (step_move taken)
  · rw [store]
    exact step_earned taken vouched.earned finishes

theorem startCall_ensures (key : ObjectId) (s : GitCli ω) :
    Ensures (cliDiscipline resident) (startCall key) s
      fun r t => ∃ slot, (t.coalescer.calls r.1).bound = some (key, slot) := by
  refine ensures_await fun t later vouched r u ran => ?_
  obtain ⟨next, taken, same⟩ := Option.map_eq_some_iff.mp ran
  cases same
  obtain ⟨moved, kept⟩ := coalescer_step vouched taken (by simp)
    { t with coalescer := next, nextCall := t.nextCall + 1 } rfl rfl
  refine ⟨moved, kept, fun v after _ => ?_⟩
  have bound : ∃ slot, (next.calls t.nextCall).bound = some (key, slot) := by
    cases step_move taken with
    | join _ _ slot => exact ⟨slot, by simp [Phase.bound]⟩
    | lead => exact ⟨t.coalescer.coalescer.allocated, by simp [Phase.bound]⟩
  obtain ⟨slot, bound⟩ := bound
  exact ⟨slot, after.bound _ _ bound⟩

theorem coalesce_ensures {a : Action ObjectId Unit} (s : GitCli ω)
    (finishes : ∀ t, Later resident s t → ∀ c key slot, a = .finish c (.ok ()) →
      (t.coalescer.calls c).bound = some (key, slot) → resident t.store.world key) :
    Ensures (cliDiscipline resident) (coalesce a) s fun _ _ => True := by
  refine ensures_await fun t later vouched r u ran => ?_
  obtain ⟨next, taken, same⟩ := Option.map_eq_some_iff.mp ran
  cases same
  obtain ⟨moved, kept⟩ :=
    coalescer_step vouched taken (finishes t later) { t with coalescer := next } rfl rfl
  exact ⟨moved, kept, fun _ _ _ => trivial⟩

theorem awaitResult_ensures {call : CallId} {key : ObjectId} {slot : SlotId} (s : GitCli ω)
    (bound : (s.coalescer.calls call).bound = some (key, slot)) :
    Ensures (cliDiscipline resident) (awaitResult call) s
      fun r t => r = .ok () → resident t.store.world key := by
  refine ensures_await fun t later vouched r u ran => ?_
  obtain ⟨next, taken, answered⟩ := Option.bind_eq_some_iff.mp ran
  split at answered
  · rename_i leader key' slot' result phase
    cases answered
    obtain ⟨moved, kept⟩ :=
      coalescer_step vouched taken (by simp) { t with coalescer := next } rfl rfl
    refine ⟨moved, kept, fun v after _ ok => after.grows key ?_⟩
    cases step_move taken with
    | park => simp at phase
    | receive _ key'' slot'' result' checking done =>
      have now := later.bound call _ bound
      rw [checking] at now
      obtain ⟨rfl, rfl⟩ := Prod.mk.inj (Option.some.inj now)
      simp only [set_calls, if_true, Phase.returned.injEq] at phase
      rw [phase.2.2.2, ok] at done
      exact vouched.earned.resident_of_done vouched.machine (later.bound call _ bound) done
  · cases answered

theorem doOrJoin_ensures (key : ObjectId) {f : ExceptT FetcherError (Prog (GitCli ω)) Unit}
    (work : ∀ s, Ensures (cliDiscipline resident) f.run s
      fun r t => r = .ok () → resident t.store.world key) (s : GitCli ω) :
    Ensures (cliDiscipline resident) (doOrJoin key f) s
      fun r t => r = .ok () → resident t.store.world key := by
  apply (startCall_ensures key s).bind
  rintro ⟨call, leader⟩ t - - ⟨slot, bound⟩
  dsimp only at bound ⊢
  split
  · refine (work t).bind fun r u worked _ landed => ?_
    have here : r.mapError FetcherError.display = .ok () → resident u.store.world key := by
      cases r with
      | error e => exact fun same => nomatch same
      | ok _ => exact fun _ => landed rfl
    have finished : Ensures (cliDiscipline resident)
        (coalesce (.finish call (r.mapError FetcherError.display))) u fun _ _ => True := by
      refine coalesce_ensures u fun v later c key' slot' same bound' => ?_
      obtain ⟨rfl, ok⟩ := Action.finish.inj same
      rw [later.bound call _ (worked.bound call _ bound)] at bound'
      cases bound'
      exact later.grows key (here ok)
    refine finished.bind fun _ v first _ _ => ?_
    refine (coalesce_ensures v (by simp)).bind fun _ x second _ _ => ?_
    refine (coalesce_ensures x (by simp)).bind fun _ y third _ _ => ?_
    exact ensures_ret fun z fourth _ ok => fourth.grows key
      (third.grows key (second.grows key (first.grows key (here ok))))
  · exact awaitResult_ensures t bound

theorem fetchObject_ensures (sees : G.Sees resident) (keeps : cat.Keeps resident)
    (oid : ObjectId) (s : GitCli ω) :
    Ensures (cliDiscipline resident) (fetchObject cat G oid).run s
      fun r t => r = .ok () → resident t.store.world oid := by
  refine ((theStore_reports sees).contains oid s).runLift fun found t _ _ present => ?_
  split
  · rename_i here
    exact ensures_ret fun u next _ _ => next.grows oid (present here)
  · apply (doOrJoin_ensures oid (rawFetchFrom_ensures sees keeps oid 2 none) t).bind
    intro r u _ _ landed
    cases r with
    | error e =>
      exact ensures_ret fun _ _ _ same => (nomatch same)
    | ok _ =>
      exact ensures_ret fun v next _ _ => next.grows oid (landed rfl)

section
variable {asserts : HeaderProbe → Prop} {here there : ObjectId → Prop} {found : Probes}

/-- Whatever a probe asserts of its id is so. -/
def Backed (asserts : HeaderProbe → Prop) (here : ObjectId → Prop) (found : Probes) : Prop :=
  ∀ oid p, found.lookup oid = some p → asserts p → here p.oid

theorem backed_empty (asserts : HeaderProbe → Prop) (here : ObjectId → Prop) :
    Backed asserts here ∅ := by
  intro oid p found
  simp at found

theorem Backed.insert (backed : Backed asserts here found) (oid : ObjectId) {p : HeaderProbe}
    (present : asserts p → here p.oid) : Backed asserts here (found.insert oid p) := by
  intro other q looked
  by_cases same : other = oid
  · subst same
    rw [AList.lookup_insert, Option.some.injEq] at looked
    exact looked ▸ present
  · rw [AList.lookup_insert_ne same] at looked
    exact backed other q looked

theorem Backed.insertAll {probe : ObjectId → HeaderProbe} (oids : List ObjectId)
    (backed : Backed asserts here found)
    (each : ∀ oid ∈ oids, asserts (probe oid) → here (probe oid).oid) :
    Backed asserts here (insertAll probe oids found) := by
  induction oids generalizing found with
  | nil => exact backed
  | cons oid rest ih =>
    exact ih (backed.insert oid (each oid (List.mem_cons_self ..)))
      fun other later => each other (List.mem_cons_of_mem _ later)

theorem Backed.mono (backed : Backed asserts here found) (grows : ∀ oid, here oid → there oid) :
    Backed asserts there found :=
  fun oid p looked asserted => grows p.oid (backed oid p looked asserted)

theorem Backed.reorder
    (silent : ∀ oid, ¬ asserts (.error oid (.backend oid "prefetch_headers: missing result")))
    (oids : List ObjectId) (backed : Backed asserts here found) :
    ∀ p ∈ reorderProbes oids found, asserts p → here p.oid := by
  induction oids generalizing found with
  | nil => simp [reorderProbes]
  | cons oid rest ih =>
    intro p member asserted
    rcases List.mem_cons.mp member with rfl | later
    · cases looked : found.lookup oid with
      | none =>
        rw [looked] at asserted
        exact absurd asserted (silent oid)
      | some q =>
        simp only [looked, Option.getD_some] at asserted ⊢
        exact backed oid q looked asserted
    · refine ih (fun other q looked => ?_) p later asserted
      by_cases same : other = oid
      · subst same
        simp at looked
      · rw [AList.lookup_erase_ne same] at looked
        exact backed other q looked

end

theorem partitionLocal_ensures (sees : G.Sees resident) (oids : List ObjectId) (s : GitCli ω) :
    Ensures (cliDiscipline resident) (partitionLocal G oids) s
      fun split t => ∀ oid ∈ split.1, resident t.store.world oid := by
  induction oids generalizing s with
  | nil => exact ensures_ret fun _ _ _ _ member => nomatch member
  | cons oid rest ih =>
    refine ((theStore_reports sees).contains oid s).bind fun found t _ _ present => ?_
    apply (ih t).bind
    rintro ⟨present', absent⟩ u later - local'
    refine ensures_ret fun v next _ other member => ?_
    cases found with
    | false => exact next.grows other (local' other member)
    | true =>
      rcases List.mem_cons.mp member with rfl | old
      · exact next.grows _ (later.grows _ (present rfl))
      · exact next.grows other (local' other old)

theorem claim_respects (candidates : List ObjectId) :
    Respects (cliDiscipline resident) (claim candidates : Prog (GitCli ω) (List ObjectId)) := by
  refine respects_local ?_ ?_ <;> intro s a t ran <;> cases ran <;> rfl

theorem unclaim_respects (lead : List ObjectId) :
    Respects (cliDiscipline resident) (unclaim lead : Prog (GitCli ω) Unit) := by
  unfold unclaim
  split
  · exact respects_pure _
  · refine respects_local ?_ ?_ <;> intro s a t ran <;> cases ran <;> rfl

theorem askBatch_respects (keeps : cat.Keeps resident) (lead : List ObjectId) (attempts : Nat)
    (lastIoErr : Option String) :
    Respects (cliDiscipline resident) (askBatch cat lead attempts lastIoErr) := by
  induction attempts generalizing lastIoErr with
  | zero => exact respects_pure _
  | succ attempts ih =>
    refine BatchChildPool.acquire_respects.bind fun slot => ?_
    refine (BatchChildPool.withChild_respects keeps slot
      (BatchChild.queryBatch_respects keeps lead)).bind ?_
    rintro (spawnErr | e | lines)
    · exact (BatchChildPool.release_respects slot).bind fun _ => respects_pure _
    · exact (BatchChildPool.reset_respects keeps slot).bind fun _ =>
        (BatchChildPool.release_respects slot).bind fun _ => ih (some e)
    · exact (BatchChildPool.release_respects slot).bind fun _ => respects_pure _

section
variable {asserts : HeaderProbe → Prop}

/-- A skipped id is looked up from a permitted state; there a `Present` without a header
    has to be true already. -/
theorem probeSkipped_ensuresIf (sees : G.Sees resident) (lead oids : List ObjectId)
    {permit : Prog (GitCli ω) Probes → GitCli ω → Prop}
    (skipped : ∀ oid rest found t, oid ∉ lead → permit (probeSkipped G lead (oid :: rest) found) t →
      asserts (.present oid) → resident t.store.world oid)
    {found : Probes} (s : GitCli ω) (backed : Backed asserts (resident s.store.world) found) :
    EnsuresIf (cliDiscipline resident) permit (probeSkipped G lead oids found) s
      fun probes t => Backed asserts (resident t.store.world) probes := by
  induction oids generalizing found s with
  | nil =>
    apply Ensures.permitting
    exact ensures_ret fun t later _ => backed.mono later.grows
  | cons oid rest ih =>
    by_cases led : oid ∈ lead
    · have passed : probeSkipped G lead (oid :: rest) found = probeSkipped G lead rest found :=
        if_pos led
      rw [passed]
      exact ih s backed
    · refine ensuresIf_of_permitted fun t first _ permitted => ?_
      have looks : probeSkipped G lead (oid :: rest) found = _ := if_neg led
      have bare : asserts (.present oid) → resident t.store.world oid :=
        skipped oid rest found t led (permitted fun a same => by
          rw [looks] at same
          cases same)
      rw [looks]
      refine (((theStore_reports sees).header oid t).permitting _).bind ?_
      rintro (e | ⟨kind, size⟩) u later - ⟨present, -⟩
      · exact ih u (((backed.mono first.grows).mono later.grows).insert oid
          fun asserted => later.grows oid (bare asserted))
      · exact ih u (((backed.mono first.grows).mono later.grows).insert oid
          fun _ => present trivial _ rfl)

theorem probeLine_ensures (sees : G.Sees resident) (silent : ∀ oid e, ¬ asserts (.error oid e))
    (oid : ObjectId) (line : String) (s : GitCli ω) :
    Ensures (cliDiscipline resident) (probeLine cat G oid line) s
      fun p t => asserts p → resident t.store.world p.oid := by
  unfold probeLine
  split
  · refine ((theStore_reports sees).contains oid s).bind fun found t _ _ present => ?_
    split
    · rename_i here
      exact ensures_ret fun u next _ _ => next.grows oid (present here)
    · exact ensures_ret fun _ _ _ asserted => absurd asserted (silent oid _)
  · exact ensures_ret fun _ _ _ asserted => absurd asserted (silent oid _)
  · exact ensures_ret fun _ _ _ asserted => absurd asserted (silent oid _)

theorem probeLines_ensures (sees : G.Sees resident) (silent : ∀ oid e, ¬ asserts (.error oid e))
    (answers : List (ObjectId × String)) {found : Probes} (s : GitCli ω)
    (backed : Backed asserts (resident s.store.world) found) :
    Ensures (cliDiscipline resident) (probeLines cat G answers found) s
      fun probes t => Backed asserts (resident t.store.world) probes := by
  induction answers generalizing found s with
  | nil => exact ensures_ret fun t later _ => backed.mono later.grows
  | cons answer rest ih =>
    refine (probeLine_ensures sees silent answer.1 answer.2 s).bind fun p t later _ present => ?_
    exact ih t ((backed.mono later.grows).insert answer.1 present)

theorem probeLead_ensures (sees : G.Sees resident) (keeps : cat.Keeps resident)
    (silent : ∀ oid e, ¬ asserts (.error oid e)) (lead : List ObjectId) {found : Probes}
    (s : GitCli ω) (backed : Backed asserts (resident s.store.world) found) :
    Ensures (cliDiscipline resident) (probeLead cat G lead found) s
      fun probes t => Backed asserts (resident t.store.world) probes := by
  unfold probeLead
  split
  · exact ensures_ret fun t later _ => backed.mono later.grows
  · apply (askBatch_respects keeps lead 2 none s).bind
    rintro (why | lines | lastIoErr) t later - -
    · exact ensures_ret fun u next _ => ((backed.mono later.grows).mono next.grows).insertAll lead
        fun oid _ asserted => absurd asserted (silent oid _)
    · exact probeLines_ensures sees silent _ t (backed.mono later.grows)
    · exact ensures_ret fun u next _ => ((backed.mono later.grows).mono next.grows).insertAll lead
        fun oid _ asserted => absurd asserted (silent oid _)

/-- What the probes of a batch assert holds, if it does of the ids that the batch looks up
    on another's behalf. -/
theorem prefetchHeaders_ensuresIf (sees : G.Sees resident) (keeps : cat.Keeps resident)
    (silent : ∀ oid e, ¬ asserts (.error oid e))
    {permit : Prog (GitCli ω) (List HeaderProbe) → GitCli ω → Prop}
    (skipped : ∀ lead oid rest found next t, oid ∉ lead →
      permit (probeSkipped G lead (oid :: rest) found >>= next) t →
      asserts (.present oid) → resident t.store.world oid)
    (oids : List ObjectId) (s : GitCli ω) :
    EnsuresIf (cliDiscipline resident) permit (prefetchHeaders cat G oids) s
      fun probes t => ∀ p ∈ probes, asserts p → resident t.store.world p.oid := by
  unfold prefetchHeaders
  split
  · exact (ensures_ret fun _ _ _ _ member => nomatch member).permitting _
  · apply ((partitionLocal_ensures sees oids s).stable.permitting _).bind
    rintro ⟨present, toQuery⟩ t - - landed
    refine ((claim_respects toQuery t).permitting _).bind fun lead u later vouched _ => ?_
    have start : Backed asserts (resident u.store.world) (insertAll .present present ∅) :=
      (backed_empty _ _).insertAll present fun oid member _ => landed u later vouched oid member
    refine (probeSkipped_ensuresIf sees lead toQuery
      (fun oid rest found => skipped lead oid rest found _) u start).bind
      fun found v _ _ backed => ?_
    refine ((probeLead_ensures sees keeps silent lead v backed).permitting _).bind
      fun probes x _ _ whole => ?_
    refine ((unclaim_respects lead x).permitting _).bind fun _ y later _ _ => ?_
    apply Ensures.permitting
    exact ensures_ret fun z next _ =>
      ((whole.mono later.grows).mono next.grows).reorder (fun oid => silent oid _) oids

end

theorem prefetchHeaders_ensures (sees : G.Sees resident) (keeps : cat.Keeps resident)
    (oids : List ObjectId) (s : GitCli ω) :
    Ensures (cliDiscipline resident) (prefetchHeaders cat G oids) s
      fun probes t => ∀ p ∈ probes, p.carried.isSome → resident t.store.world p.oid := by
  apply ensures_of_always
  apply prefetchHeaders_ensuresIf sees keeps
  · intro oid e carried
    cases carried
  · intro lead oid rest found next t _ _ carried
    cases carried

theorem gitCli_delivers (sees : G.Sees resident) (keeps : cat.Keeps resident) :
    (GitCliFetcher cat G).Delivers (cliDiscipline resident) (fun s => resident s.store.world) True
      fun _ => True where
  fetchObject oid s := (fetchObject_ensures sees keeps oid s).mono
    fun _ _ _ _ landed => ⟨landed, fun _ _ => trivial⟩
  prefetchHeaders oids s := (prefetchHeaders_ensures sees keeps oids s).mono
    fun _ _ _ _ present _ => present
  fetchObjects oids s := (prefetchHeaders_ensures sees keeps oids s).mono
    fun _ _ _ _ present _ => present

end
end ProjgitGitCli

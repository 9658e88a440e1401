import Projgit.Daemon
import Projgit.GitCliResidency

/-!
A successful `Fetch` means that the object is on disk. The discipline of the whole system:
the daemon's fetcher state is in order, every `Ok` on the wire has been earned, objects only
arrive, and a connection keeps its request. Every task is verified under it; the pool then
holds it along every run.
-/
namespace ProjgitDaemon
open ProjgitStore ProjgitGitCli ProjgitCaches Interleave LabelledRuns
variable {ω : Type}

/-- The object that a request for `hex` names is there. -/
def Landed (wire : Wire) (resident : ω → ObjectId → Prop) (w : ω) (hex : String) : Prop :=
  ∃ oid, wire.fromHex hex = .ok oid ∧ resident w oid

def Earnt (wire : Wire) (resident : ω → ObjectId → Prop) (w : ω) (request : Request)
    (response : Response) : Prop :=
  ∀ hex, request = .fetch hex → response = .ok → Landed wire resident w hex

structure InOrder (wire : Wire) (resident : ω → ObjectId → Prop) (s : Daemon ω) : Prop where
  git : Vouched resident s.git
  answers : ∀ (conn : Nat) c response, s.connections[conn]? = some c →
    c.status = .answered response → Earnt wire resident s.world c.request response

structure Onward (resident : ω → ObjectId → Prop) (s t : Daemon ω) : Prop where
  git : Later resident s.git t.git
  requests : ∀ (conn : Nat) c, s.connections[conn]? = some c →
    ∃ d, t.connections[conn]? = some d ∧ d.request = c.request

def daemonDiscipline (wire : Wire) (resident : ω → ObjectId → Prop) : Discipline (Daemon ω) where
  inv := InOrder wire resident
  rely := Onward resident
  refl _ := ⟨(cliDiscipline resident).refl _, fun _ c found => ⟨c, found, rfl⟩⟩
  trans first second := by
    refine ⟨(cliDiscipline resident).trans first.git second.git, fun conn c found => ?_⟩
    obtain ⟨d, foundD, sameD⟩ := first.requests conn c found
    obtain ⟨e, foundE, sameE⟩ := second.requests conn d foundD
    exact ⟨e, foundE, sameE.trans sameD⟩

section
variable {wire : Wire} {resident : ω → ObjectId → Prop} {cat : CatFile ω} {G : Gix ω}
  {s t : Daemon ω}

theorem Onward.grows (onward : Onward resident s t) {oid : ObjectId}
    (here : resident s.world oid) : resident t.world oid := onward.git.grows oid here

theorem Landed.later (onward : Onward resident s t) {hex : String}
    (landed : Landed wire resident s.world hex) : Landed wire resident t.world hex := by
  obtain ⟨oid, parsed, here⟩ := landed
  exact ⟨oid, parsed, onward.grows here⟩

theorem setGit_inOrder {git : GitCli ω} (inOrder : InOrder wire resident s)
    (later : Later resident s.git git) (vouched : Vouched resident git) :
    Onward resident s (s.setGit git) ∧ InOrder wire resident (s.setGit git) := by
  have onward : Onward resident s (s.setGit git) := ⟨later, fun _ c found => ⟨c, found, rfl⟩⟩
  refine ⟨onward, vouched, fun conn c response found status hex asked ok => ?_⟩
  exact (inOrder.answers conn c response found status hex asked ok).later onward

theorem git_focus (wire : Wire) : Focus (cliDiscipline resident) (daemonDiscipline wire resident) Daemon.git
    Daemon.setGit where
  get_set _ _ := rfl
  rely _ _ onward := onward.git
  inv _ inOrder := inOrder.git
  put _ _ inOrder later vouched := setGit_inOrder inOrder later vouched

theorem sidecar_focus (i : Nat) :
    Focus (storeDiscipline resident False) (daemonDiscipline wire resident) (Daemon.sidecar i)
      (Daemon.setSidecar i) where
  get_set t store := by
    simp [Daemon.sidecar, Daemon.setSidecar, Daemon.world, GitCli.setWorld]
  rely _ _ onward _ here := onward.grows here
  inv _ _ impossible := impossible.elim
  put t store inOrder grows _ := by
    obtain ⟨later, vouched⟩ := setWorld_vouched inOrder.git grows
    obtain ⟨onward, kept⟩ := setGit_inOrder inOrder later vouched
    exact ⟨⟨onward.git, onward.requests⟩, kept.git, kept.answers⟩

theorem setStatus_inOrder (inOrder : InOrder wire resident s) (conn : Nat) (status : Status)
    (earnt : ∀ c response, s.connections[conn]? = some c → status = .answered response →
      Earnt wire resident s.world c.request response) :
    Onward resident s (s.setStatus conn status) ∧
      InOrder wire resident (s.setStatus conn status) := by
  refine ⟨⟨(cliDiscipline resident).refl _, fun i c found => ?_⟩, inOrder.git, ?_⟩
  · refine ⟨if conn = i then { c with status := status } else c, ?_, by split <;> rfl⟩
    simp [Daemon.setStatus, List.getElem?_modify, found]
  · intro i c response found
    simp only [Daemon.setStatus, List.getElem?_modify, Option.map_eq_map,
      Option.map_eq_some_iff] at found
    obtain ⟨d, foundD, same⟩ := found
    subst same
    split
    · rename_i here
      subst here
      exact earnt d response foundD
    · exact inOrder.answers i d response foundD

theorem newConnection_inOrder (inOrder : InOrder wire resident s) (request : Request) :
    Onward resident s { s with connections := s.connections ++ [⟨request, .sent⟩] } ∧
      InOrder wire resident { s with connections := s.connections ++ [⟨request, .sent⟩] } := by
  refine ⟨⟨(cliDiscipline resident).refl _, fun i c found => ⟨c, ?_, rfl⟩⟩, inOrder.git, ?_⟩
  · obtain ⟨inside, -⟩ := List.getElem?_eq_some_iff.mp found
    rw [List.getElem?_append_left inside]
    exact found
  · intro i c response found status
    rcases Nat.lt_or_ge i s.connections.length with inside | beyond
    · rw [List.getElem?_append_left inside] at found
      exact inOrder.answers i c response found status
    · rw [List.getElem?_append_right beyond] at found
      have fresh := List.mem_of_getElem? found
      simp only [List.mem_singleton] at fresh
      subst fresh
      cases status

theorem send_ensures (request : Request) (s : Daemon ω) :
    Ensures (daemonDiscipline wire resident) (send request) s
      fun conn t => ∃ c, t.connections[conn]? = some c ∧ c.request = request := by
  refine ensures_await fun t later inOrder conn u ran => ?_
  cases ran
  obtain ⟨onward, kept⟩ := newConnection_inOrder inOrder request
  refine ⟨onward, kept, fun v after _ => ?_⟩
  exact after.requests t.connections.length ⟨request, .sent⟩ (by simp)

theorem receive_ensures {conn : Nat} {c : Connection} (s : Daemon ω)
    (opened : s.connections[conn]? = some c) :
    Ensures (daemonDiscipline wire resident) (receive conn) s fun r t =>
      ∀ response, r = .ok response → Earnt wire resident t.world c.request response := by
  refine ensures_await fun t later inOrder r u ran => ?_
  obtain ⟨d, found, same⟩ := later.requests conn c opened
  split at ran
  · rename_i request response answered
    cases ran
    refine ⟨(daemonDiscipline wire resident).refl t, inOrder, fun v after _ response' ok => ?_⟩
    cases ok
    rw [answered, Option.some.injEq] at found
    subst found
    intro hex asked isOk
    exact (inOrder.answers conn _ response answered rfl hex (same.trans asked) isOk).later after
  · cases ran
    exact ⟨(daemonDiscipline wire resident).refl t, inOrder, fun _ _ _ _ ok => (nomatch ok)⟩
  · cases ran

namespace DaemonFetcher

theorem rpc_ensures (request : Request) (s : Daemon ω) :
    Ensures (daemonDiscipline wire resident) (rpc request) s fun r t =>
      ∀ response, r = .ok response → Earnt wire resident t.world request response := by
  apply (send_ensures request s).bind
  intro conn t _ _ given
  obtain ⟨c, opened, rfl⟩ := given
  exact receive_ensures t opened

theorem daemonErr_backend (oid : ObjectId) (code message : String) :
    ∃ text, daemonErrToFetcher oid code message = .backend oid text := by
  unfold daemonErrToFetcher
  split_ifs <;> exact ⟨_, rfl⟩

def Plain (e : FetcherError) : Prop := ∀ oid, e ≠ .notPresentAfterFetch oid

theorem fetchObject_ensures (reads : ∀ oid : ObjectId, wire.fromHex oid.toHex = .ok oid)
    (oid : ObjectId) (s : Daemon ω) :
    Ensures (daemonDiscipline wire resident) (fetchObject wire oid).run s fun r t =>
      (r = .ok () → resident t.world oid) ∧ ∀ e, r = .error e → Plain e := by
  apply (rpc_ensures (.fetch oid.toHex) s).runLift
  rintro (transport | _ | probes | ⟨code, message⟩) t - - earnt
  · refine ensures_ret fun _ _ _ => ⟨fun same => (nomatch same), fun e same => ?_⟩
    cases same
    exact fun _ other => nomatch other
  · refine ensures_ret fun u next _ => ⟨fun _ => next.grows ?_, fun _ same => (nomatch same)⟩
    obtain ⟨found, parsed, here⟩ := earnt .ok rfl oid.toHex rfl rfl
    rw [reads oid] at parsed
    cases parsed
    exact here
  · refine ensures_ret fun _ _ _ => ⟨fun same => (nomatch same), fun e same => ?_⟩
    cases same
    exact fun _ other => nomatch other
  · refine ensures_ret fun _ _ _ => ⟨fun same => (nomatch same), fun e same => ?_⟩
    obtain ⟨text, backend⟩ := daemonErr_backend oid code message
    cases same
    rw [backend]
    exact fun _ other => nomatch other

theorem askMany_respects (request : List String → Request) (name : String)
    (oids : List ObjectId) :
    Respects (daemonDiscipline wire resident) (askMany wire request name oids) := by
  unfold askMany
  split
  · exact respects_pure _
  · apply (respects_of_ensures (rpc_ensures _)).bind
    rintro (transport | _ | probes | ⟨code, message⟩) <;> exact respects_pure _

end DaemonFetcher

theorem sidecar_grounded (sees : G.Sees resident)
    (reads : ∀ oid : ObjectId, wire.fromHex oid.toHex = .ok oid) (i : Nat) :
    (sidecarStore G wire i).Grounded (daemonDiscipline wire resident) (fun s => resident s.world)
      False DaemonFetcher.Plain where
  grows _ _ _ onward here := onward.grows here
  store := (handle_reports sees).zoom (sidecar_focus i)
  fetcher := {
    fetchObject := DaemonFetcher.fetchObject_ensures reads
    prefetchHeaders := fun oids s => (DaemonFetcher.askMany_respects _ _ oids s).mono
      fun _ _ _ _ _ impossible => impossible.elim
    fetchObjects := fun oids s => (DaemonFetcher.askMany_respects _ _ oids s).mono
      fun _ _ _ _ _ impossible => impossible.elim }

theorem backend_grounded (sees : G.Sees resident) (keeps : cat.Keeps resident) (b : Backend) :
    (b.hydrating G cat).Grounded (daemonDiscipline wire resident) (fun s => resident s.world)
      True fun _ => True := by
  have store := (theStore_reports sees).zoom (git_focus wire)
  have grows : ∀ (s t : Daemon ω) oid, Onward resident s t → resident s.world oid →
      resident t.world oid := fun _ _ _ onward here => onward.grows here
  cases b with
  | noop => exact ⟨grows, store, noop_delivers⟩
  | gitCli => exact ⟨grows, store, (gitCli_delivers sees keeps).zoom (git_focus wire)⟩

theorem fetchOne_ensures (sees : G.Sees resident) (keeps : cat.Keeps resident) (b : Backend)
    (oid : ObjectId) (s : Daemon ω) :
    Ensures (daemonDiscipline wire resident) (b.fetchOne G cat oid) s
      fun r t => r = .ok () → resident t.world oid := by
  apply (HydratingObjectStore.header_plain (backend_grounded sees keeps b) oid).bind
  intro r t _ _ given
  obtain ⟨present, -⟩ := given
  cases r with
  | error e =>
    exact ensures_ret fun _ _ _ same => nomatch same
  | ok found =>
    exact ensures_ret fun u next _ _ => next.grows (present trivial found rfl)

def Refuses {α : Type} (r : Except Response α) : Prop := r ≠ .error .ok

theorem backendOf_ensures (s : Daemon ω) : Ensures (daemonDiscipline wire resident)
    (backendOf : ExceptT Response (Prog (Daemon ω)) Backend).run s fun r _ => Refuses r := by
  have locked : Respects (daemonDiscipline wire resident)
      (lockActive : Prog (Daemon ω) (Except Unit (Option Backend))) := by
    refine fun s => ensures_await fun t later inOrder a u ran => ?_
    cases ran
    exact ⟨(daemonDiscipline wire resident).refl t, inOrder, fun _ _ _ => trivial⟩
  apply (locked s).runLift
  rintro (_ | _ | backend) t - - - <;> exact ensures_ret fun _ _ _ same => nomatch same

theorem parseOid_refuses (wire : Wire) (hex : String) :
    Refuses ((parseOid wire hex).mapError (Response.err Codes.badOid)) := by
  unfold Refuses
  cases parseOid wire hex <;> simp [Except.mapError]

theorem answer_ensures {handler : ExceptT Response (Prog (Daemon ω)) Response} {s : Daemon ω}
    {post : Daemon ω → Prop}
    (handled : Ensures (daemonDiscipline wire resident) handler.run s fun r t =>
      Refuses r ∧ (r = .ok .ok → post t)) :
    Ensures (daemonDiscipline wire resident) (answer handler) s
      fun response t => response = .ok → post t := by
  apply handled.stable.bind
  intro r t _ _ known
  cases r with
  | error refusal =>
    refine ensures_ret fun u next kept same => ?_
    exact absurd (congrArg Except.error same) (known u next kept).1
  | ok response =>
    refine ensures_ret fun u next kept same => ?_
    exact (known u next kept).2 (congrArg Except.ok same)

theorem handleFetch_ensures (sees : G.Sees resident) (keeps : cat.Keeps resident) (hex : String)
    (s : Daemon ω) :
    Ensures (daemonDiscipline wire resident) (handleFetch G cat wire hex) s
      fun response t => response = .ok → Landed wire resident t.world hex := by
  apply answer_ensures
  have parsed : Ensures (daemonDiscipline wire resident)
      (ExceptT.mk (pure ((parseOid wire hex).mapError (Response.err Codes.badOid))) :
        ExceptT Response (Prog (Daemon ω)) ObjectId).run s fun r _ =>
        r = (parseOid wire hex).mapError (Response.err Codes.badOid) :=
    ensures_ret fun _ _ _ => rfl
  refine parsed.runBind ?_ ?_
  · intro e t _ _ same
    refine ⟨?_, fun ok => nomatch ok⟩
    have refuses := parseOid_refuses wire hex
    rw [← same] at refuses
    exact fun other => refuses (congrArg Except.error (Except.error.inj other))
  · intro oid t _ _ same
    have known : wire.fromHex hex = .ok oid := by
      unfold parseOid at same
      cases read : wire.fromHex hex with
      | error e => simp [read, Except.mapError] at same
      | ok found => simpa [read, Except.mapError, eq_comm] using same
    refine (backendOf_ensures t).runBind ?_ ?_
    · intro e u _ _ refuses
      exact ⟨fun other => refuses (congrArg Except.error (Except.error.inj other)),
        fun ok => nomatch ok⟩
    · intro backend u _ _ _
      apply (fetchOne_ensures sees keeps backend oid u).runLift
      intro r v _ _ landed
      cases r with
      | error e =>
        exact ensures_ret fun _ _ _ => ⟨fun other => (nomatch other), fun ok => nomatch ok⟩
      | ok _ =>
        refine ensures_ret fun x next _ => ⟨fun other => (nomatch other), fun _ => ?_⟩
        exact ⟨oid, known, next.grows (landed rfl)⟩

theorem handleBatch_respects (wire : Wire)
    {ask : Backend → List ObjectId → Prog (Daemon ω) (List HeaderProbe)}
    (asked : ∀ backend oids, Respects (daemonDiscipline wire resident) (ask backend oids))
    (hexes : List String) :
    Respects (daemonDiscipline wire resident) (answer do
      let oids ← parseOids wire hexes
      let backend ← backendOf
      let probes ← ask backend oids
      return .headerProbes (probes.map probeToWire)) := by
  have parsed : Respects (daemonDiscipline wire resident)
      (parseOids wire hexes : ExceptT Response (Prog (Daemon ω)) (List ObjectId)).run :=
    respects_pure _
  have handled := parsed.runBind fun oids =>
    (respects_of_ensures backendOf_ensures).runBind fun backend =>
      (asked backend oids).runLift fun probes =>
        respects_pure (Except.ok (Response.headerProbes (probes.map probeToWire)))
  apply handled.bind
  rintro (refusal | response) <;> exact respects_pure _

theorem dispatch_ensures (sees : G.Sees resident) (keeps : cat.Keeps resident)
    (request : Request) (s : Daemon ω) :
    Ensures (daemonDiscipline wire resident) (dispatch G cat wire request) s
      fun response t => Earnt wire resident t.world request response := by
  cases request with
  | fetch hex =>
    refine (handleFetch_ensures sees keeps hex s).mono fun response t _ _ landed => ?_
    intro other asked ok
    cases asked
    exact landed ok
  | prefetchHeaders hexes =>
    have handled := handleBatch_respects wire (fun backend oids =>
      HydratingObjectStore.prefetchHeaders_respects (backend_grounded sees keeps backend) oids) hexes
    exact (handled s).mono fun _ _ _ _ _ _ asked => nomatch asked
  | fetchMany hexes =>
    have handled := handleBatch_respects wire (fun backend oids =>
      HydratingObjectStore.fetchObjects_respects (backend_grounded sees keeps backend) oids) hexes
    exact (handled s).mono fun _ _ _ _ _ _ asked => nomatch asked

theorem accept_ensures (conn : Nat) (s : Daemon ω) :
    Ensures (daemonDiscipline wire resident) (accept conn) s
      fun request t => ∃ c, t.connections[conn]? = some c ∧ c.request = request := by
  refine ensures_await fun t later inOrder request u ran => ?_
  split at ran
  · rename_i request' found
    cases ran
    obtain ⟨onward, kept⟩ :=
      setStatus_inOrder inOrder conn .accepted fun _ _ _ same => nomatch same
    refine ⟨onward, kept, fun v after _ => ?_⟩
    exact ((daemonDiscipline wire resident).trans onward after).requests conn _ found
  · cases ran

theorem reply_ensures {conn : Nat} {c : Connection} {response : Response} (s : Daemon ω)
    (opened : s.connections[conn]? = some c)
    (earnt : Earnt wire resident s.world c.request response) :
    Ensures (daemonDiscipline wire resident) (reply conn response) s fun _ _ => True := by
  refine ensures_await fun t later inOrder a u ran => ?_
  split at ran
  · cases ran
    have answered : ∀ d response', t.connections[conn]? = some d →
        Status.answered response = .answered response' →
        Earnt wire resident t.world d.request response' := by
      intro d response' found same hex asked ok
      obtain ⟨d', found', kept⟩ := later.requests conn c opened
      rw [found', Option.some.injEq] at found
      cases found
      cases same
      exact (earnt hex (kept.symm.trans asked) ok).later later
    obtain ⟨onward, kept⟩ := setStatus_inOrder inOrder conn (.answered response) answered
    exact ⟨onward, kept, fun _ _ _ => trivial⟩
  · cases ran
    exact ⟨(daemonDiscipline wire resident).refl t, inOrder, fun _ _ _ => trivial⟩

theorem handleConnection_ensures (sees : G.Sees resident) (keeps : cat.Keeps resident)
    (conn : Nat) (s : Daemon ω) :
    Ensures (daemonDiscipline wire resident) (handleConnection G cat wire conn) s
      fun response t => ∀ c, t.connections[conn]? = some c →
        Earnt wire resident t.world c.request response := by
  apply (accept_ensures conn s).bind
  intro request t _ _ given
  obtain ⟨c, opened, rfl⟩ := given
  refine (dispatch_ensures sees keeps c.request t).bind fun response u first _ earnt => ?_
  obtain ⟨d, found, same⟩ := first.requests conn c opened
  have earnt' : Earnt wire resident u.world d.request response := by rwa [same]
  refine (reply_ensures u found earnt').bind fun _ v second _ _ => ?_
  refine ensures_ret fun x third _ e foundE hex asked ok => ?_
  have onward := (daemonDiscipline wire resident).trans second third
  obtain ⟨e', foundE', sameE⟩ := onward.requests conn d found
  rw [foundE', Option.some.injEq] at foundE
  cases foundE
  exact (earnt' hex (sameE.symm.trans asked) ok).later onward

def Owed (wire : Wire) (resident : ω → ObjectId → Prop) : Task → Outcome → Daemon ω → Prop
  | .connection conn, .response response, t => ∀ c, t.connections[conn]? = some c →
      Earnt wire resident t.world c.request response
  | .sidecar _ _, outcome, _ => ∀ e, outcome.error = some (.fetcher e) → DaemonFetcher.Plain e
  | _, _, _ => True

theorem perform_ensures {H : HydratingObjectStore (Prog (Daemon ω))} {strict : Prop}
    {plain : FetcherError → Prop}
    (grounded : H.Grounded (daemonDiscipline wire resident) (fun s => resident s.world) strict
      plain) (call : Call) (s : Daemon ω) :
    Ensures (daemonDiscipline wire resident) (perform H call) s
      fun outcome _ => ∀ e, outcome.error = some (.fetcher e) → plain e := by
  cases call with
  | readBlob oid =>
    apply (HydratingObjectStore.readBlob_plain grounded oid).bind
    intro r t _ _ told
    cases r with
    | error e =>
      exact ensures_ret fun _ _ _ e' same => told e' (by cases same; rfl)
    | ok bytes =>
      exact ensures_ret fun _ _ _ e' same => nomatch same
  | readTree oid =>
    apply (HydratingObjectStore.readTree_plain grounded oid).bind
    intro r t _ _ told
    cases r with
    | error e =>
      exact ensures_ret fun _ _ _ e' same => told e' (by cases same; rfl)
    | ok entries =>
      exact ensures_ret fun _ _ _ e' same => nomatch same
  | header oid =>
    apply (HydratingObjectStore.header_plain grounded oid).bind
    intro r t _ _ given
    obtain ⟨-, told⟩ := given
    cases r with
    | error e =>
      exact ensures_ret fun _ _ _ e' same => told e' (by cases same; rfl)
    | ok found =>
      exact ensures_ret fun _ _ _ e' same => nomatch same
  | prefetchHeaders oids =>
    apply (HydratingObjectStore.prefetchHeaders_respects grounded oids s).bind
    exact fun _ _ _ _ _ => ensures_ret fun _ _ _ e' same => nomatch same
  | fetchObjects oids =>
    apply (HydratingObjectStore.fetchObjects_respects grounded oids s).bind
    exact fun _ _ _ _ _ => ensures_ret fun _ _ _ e' same => nomatch same

theorem program_ensures (sees : G.Sees resident) (keeps : cat.Keeps resident)
    (reads : ∀ oid : ObjectId, wire.fromHex oid.toHex = .ok oid) (task : Task) (s : Daemon ω) :
    Ensures (daemonDiscipline wire resident) (program G cat wire task) s
      (Owed wire resident task) := by
  cases task with
  | connection conn =>
    apply (handleConnection_ensures sees keeps conn s).stable.bind
    exact fun response t _ _ earnt => ensures_ret fun u next kept => earnt u next kept
  | warm rootTree =>
    apply (backendOf_ensures s).bind
    intro r t _ _ _
    cases r with
    | error refusal =>
      exact ensures_ret fun _ _ _ => trivial
    | ok backend =>
      refine (HydratingObjectStore.warmTreeClosure_respects
        (backend_grounded sees keeps backend) rootTree t).bind ?_
      exact fun _ _ _ _ _ => ensures_ret fun _ _ _ => trivial
  | mounted call =>
    apply (backendOf_ensures s).bind
    intro r t _ _ _
    cases r with
    | error refusal =>
      exact ensures_ret fun _ _ _ => trivial
    | ok backend =>
      exact (perform_ensures (backend_grounded sees keeps backend) call t).mono
        fun _ _ _ _ _ => trivial
  | sidecar process call => exact perform_ensures (sidecar_grounded sees reads process) call s

theorem incident_calm {e : Incident ω} (allowed : OnlyArrivals resident s e)
    (happened : incident s e = some t) (inOrder : InOrder wire resident s) :
    Onward resident s t ∧ InOrder wire resident t := by
  cases e with
  | world w =>
    cases happened
    obtain ⟨later, vouched⟩ := setWorld_vouched inOrder.git allowed
    exact setGit_inOrder inOrder later vouched
  | evict oid =>
    cases happened
    refine setGit_inOrder inOrder ⟨fun _ here => here, fun _ _ bound => bound⟩
      ⟨cached_erase inOrder.git.headers oid, inOrder.git.machine, inOrder.git.earned⟩
  | disconnect conn why =>
    cases happened
    exact setStatus_inOrder inOrder conn (.broken why) fun _ _ _ same => nomatch same
  | request request =>
    cases happened
    exact newConnection_inOrder inOrder request

theorem attached_inOrder (backend : Backend) (poolSize trees blobBytes perEntry headers : Nat)
    (w : ω) (sidecars : Nat → Store Unit) :
    InOrder wire resident (Daemon.attached backend poolSize
      (.withCapacities trees blobBytes perEntry headers w) sidecars) where
  git := ⟨cached_empty _, ProjgitCoalesce.new_inv, new_earned _⟩
  answers conn c response found := by simp [Daemon.attached] at found

/-- Along every run of an attached daemon and its sidecars, a handler answers `Ok` to a
    `Fetch` only if the object is resident, and no read of a sidecar ends in
    `NotPresentAfterFetch`. -/
theorem fetch_ok_means_resident (sees : G.Sees resident) (keeps : cat.Keeps resident)
    (reads : ∀ oid : ObjectId, wire.fromHex oid.toHex = .ok oid) (backend : Backend)
    (poolSize trees blobBytes perEntry headers : Nat) (w : ω) (sidecars : Nat → Store Unit)
    (events : List (Event Task (Incident ω))) (p : Pool (Daemon ω) Task Outcome)
    (run : exec (daemonStep G cat wire) ⟨Daemon.attached backend poolSize
      (.withCapacities trees blobBytes perEntry headers w) sidecars, []⟩ events = some p)
    (arrivals : Meets (daemonStep G cat wire) (Pool.Tame (OnlyArrivals resident))
      ⟨Daemon.attached backend poolSize
        (.withCapacities trees blobBytes perEntry headers w) sidecars, []⟩ events) :
    (∀ conn c hex, p.shared.connections[conn]? = some c → c.request = .fetch hex →
      (c.status = .answered .ok ∨ (.connection conn, .ret (.response .ok)) ∈ p.threads) →
      ∃ oid, wire.fromHex hex = .ok oid ∧ resident p.shared.world oid) ∧
    (∀ process call outcome, (.sidecar process call, .ret outcome) ∈ p.threads →
      ∀ oid, outcome.error ≠ some (.fetcher (.notPresentAfterFetch oid))) := by
  have start : Pool.Sound (daemonDiscipline wire resident) (Owed wire resident)
      ⟨Daemon.attached backend poolSize
        (.withCapacities trees blobBytes perEntry headers w) sidecars, []⟩ :=
    ⟨attached_inOrder backend poolSize trees blobBytes perEntry headers w sidecars,
      fun _ _ member => nomatch member⟩
  have sound := Pool.run_sound (fun task s _ => program_ensures sees keeps reads task s)
    (fun _ _ _ allowed happened inOrder => incident_calm allowed happened inOrder)
    run arrivals start
  constructor
  · rintro conn c hex found asked (answered | finished)
    · exact sound.inv.answers conn c .ok found answered hex asked rfl
    · exact sound.finished finished c found hex asked rfl
  · intro process call outcome finished oid same
    exact sound.finished finished _ same oid rfl

end
/- One blob upstream, a partial clone without it, and a `git` that fetches it when asked. -/

def emptyBlob : ObjectId :=
  ⟨[0xe6, 0x9d, 0xe2, 0x9b, 0xb2, 0xd1, 0xd6, 0x43, 0x4b, 0x8b, 0x29, 0xae, 0x77, 0x5a, 0xd8,
    0xc2, 0xe4, 0x8c, 0x53, 0x91], rfl⟩

/-- Whether the blob has landed, and the lines a child has yet to answer. -/
structure Clone where
  landed : Bool
  asked : List String

def Clone.resident (w : Clone) (oid : ObjectId) : Prop := w.landed = true ∧ oid = emptyBlob

def cloneGix : Gix Clone where
  tryFindObject w oid := .ok (if w.landed ∧ oid = emptyBlob then some ⟨.blob, []⟩ else none)
  tryFindHeader w oid := .ok (if w.landed ∧ oid = emptyBlob then some (.blob, 0) else none)
  treeIter _ := []
  commitTreeId _ := .error "not a commit"
  committerSeconds _ := .error "not a commit"
  findReference _ _ := .error "no such reference"

def cloneCat : CatFile Clone where
  spawn w := (.ok 0, w)
  writeLine _ line w := (.ok (), { w with asked := w.asked ++ [line] })
  flush _ w := (.ok (), w)
  readLine _ w :=
    match w.asked with
    | [] => (.ok "", w)
    | line :: rest =>
      if line = emptyBlob.toHex then (.ok (line ++ " blob 0\n"), ⟨true, rest⟩)
      else (.ok (line ++ " missing\n"), ⟨w.landed, rest⟩)
  reap _ w := ((), w)
  debug line := "\"" ++ line ++ "\""

def hexValue (c : Char) : Option Nat :=
  if '0' ≤ c ∧ c ≤ '9' then some (c.toNat - '0'.toNat)
  else if 'a' ≤ c ∧ c ≤ 'f' then some (c.toNat - 'a'.toNat + 10)
  else if 'A' ≤ c ∧ c ≤ 'F' then some (c.toNat - 'A'.toNat + 10)
  else none

def decodeHex : List Char → Option Utf8Bytes.Bytes
  | [] => some []
  | [_] => none
  | high :: low :: rest => do
    let high ← hexValue high
    let low ← hexValue low
    let more ← decodeHex rest
    return UInt8.ofNat (16 * high + low) :: more

def cloneWire : Wire where
  fromHex text :=
    match decodeHex text.toList with
    | none => .error "Invalid character encountered"
    | some bytes =>
      if width : bytes.length = 20 then .ok ⟨bytes, width⟩
      else .error "A hash of this length is invalid"
  debug
    | .ok => "Ok"
    | .headerProbes _ => "HeaderProbes"
    | .err _ _ => "Err"

theorem hexValue_hexDigit : ∀ n < 16, hexValue (hexDigit n) = some n := by decide

theorem decodeHex_encoded (bytes : Utf8Bytes.Bytes) :
    decodeHex (bytes.flatMap fun b => [hexDigit (b.toNat / 16), hexDigit (b.toNat % 16)]) =
      some bytes := by
  induction bytes with
  | nil => rfl
  | cons b rest ih =>
    have bound : b.toNat < 256 := b.toNat_lt
    have whole : UInt8.ofNat (16 * (b.toNat / 16) + b.toNat % 16) = b := by
      rw [Nat.div_add_mod, UInt8.ofNat_toNat]
    simp only [List.flatMap_cons, List.cons_append, List.nil_append, decodeHex,
      hexValue_hexDigit _ (by omega : b.toNat / 16 < 16),
      hexValue_hexDigit _ (by omega : b.toNat % 16 < 16), ih]
    exact congrArg (fun b => some (b :: rest)) whole

theorem cloneWire_reads (oid : ObjectId) : cloneWire.fromHex oid.toHex = .ok oid := by
  simp [cloneWire, ObjectId.toHex, decodeHex_encoded, oid.width]

theorem cloneGix_sees : cloneGix.Sees Clone.resident := by
  constructor <;> intro w oid found answered <;> cases answered <;>
    simp [Clone.resident, Option.isSome_ite]

theorem cloneCat_keeps : cloneCat.Keeps Clone.resident := by
  refine ⟨fun _ _ here => here, fun _ _ _ _ here => here, fun _ _ _ here => here, ?_,
    fun _ _ _ here => here⟩
  intro child w oid here
  simp only [cloneCat]
  split
  · exact here
  · split
    · exact ⟨rfl, here.2⟩
    · exact here

def cloneStart : Pool (Daemon Clone) Task Outcome :=
  ⟨.attached .gitCli 2 (.withCapacities 4 64 64 4 ⟨false, []⟩)
    (fun _ => .withCapacities 4 64 64 4 ()), []⟩

/-- A sidecar misses the blob and asks; the handler has it fetched; its header is evicted; the
    sidecar reads it. -/
def fetchRun : List (Event Task (Incident Clone)) :=
  .start (.sidecar 0 (.readBlob emptyBlob)) :: List.replicate 4 (.advance 0) ++
    .start (.connection 0) :: List.replicate 26 (.advance 1) ++
    .outside (.evict emptyBlob) :: List.replicate 5 (.advance 0)

theorem fetchRun_result :
    (exec (daemonStep cloneGix cloneCat cloneWire) cloneStart fetchRun).map
        (fun p => (p.shared.connections, p.outcomes)) =
      some ([⟨.fetch emptyBlob.toHex, .answered .ok⟩],
        [some (.blob (.ok [])), some (.response .ok)]) := by
  decide +kernel

theorem fetched_blob_resident :
    ∃ p, exec (daemonStep cloneGix cloneCat cloneWire) cloneStart fetchRun = some p ∧
      p.outcomes = [some (.blob (.ok [])), some (.response .ok)] ∧
      ∃ oid, cloneWire.fromHex emptyBlob.toHex = .ok oid ∧ Clone.resident p.shared.world oid := by
  obtain ⟨p, run, result⟩ := Option.map_eq_some_iff.mp fetchRun_result
  obtain ⟨connections, outcomes⟩ := Prod.mk.inj result
  refine ⟨p, run, outcomes, ?_⟩
  have arrivals : Meets (daemonStep cloneGix cloneCat cloneWire)
      (Pool.Tame (OnlyArrivals Clone.resident)) cloneStart fetchRun :=
    Pool.tame_of_forall (by simp [fetchRun, OnlyArrivals]) cloneStart
  refine (fetch_ok_means_resident cloneGix_sees cloneCat_keeps cloneWire_reads .gitCli 2 4 64 64 4
    ⟨false, []⟩ _ fetchRun p run arrivals).1 0 ⟨.fetch emptyBlob.toHex, .answered .ok⟩ _ ?_ rfl
    (Or.inl rfl)
  rw [connections]
  rfl

end ProjgitDaemon

import Projgit.Server

/-!
A shutdown is heard. The flag is stored before the self-connect, so the accept loop, which
blocks without looking at the flag, has a connection to wake it up, unless the self-connect is
refused: that error is dropped, and the main thread sleeps on until somebody else connects.
Once awake it is a bounded number of steps from the end of `run`, and serves nobody new.
-/
namespace ProjgitServer
open ProjgitRegistry ProjgitProtocol LabelledRuns JsonText Utf8Bytes

def MainThread.starting : MainThread → Bool
  | .clear | .bind | .chmod | .createPid | .writePid | .abandon | .spawnMaintenance
  | .returned false => true
  | _ => false

def MainThread.leaving : MainThread → Bool
  | .join | .dropListener | .removeSocket | .removePid | .returned true => true
  | _ => false

def MainThread.listens : MainThread → Bool
  | .chmod | .createPid | .writePid | .abandon | .spawnMaintenance | .accept | .check _ | .spawn _
  | .join | .dropListener => true
  | _ => false

def Taken (s : Server) (c : ConnId) : Prop :=
  ∃ handler, s.handlerOf c = some handler ∧ handler ≠ .queued ∧ handler ≠ .dropped

def Waking (s : Server) : Prop := ∃ c reply, s.handlerOf c = some (.waking reply)

structure Sound (config : Config) (s : Server) : Prop where
  idle : s.main.starting = true → s.stopping = false ∧ s.maintenance = none ∧ ∀ c, ¬ Taken s c
  asked : s.main.leaving = true → s.stopping = true
  listening : s.listening = s.main.listens
  waking : Waking s → s.stopping = true
  paced : s.maintenance ≠ none → config.maintenance ≠ none

section
variable {config : Config} {s t : Server} {ok : Bool} {c d : Nat} {handler : Handler}

theorem opens_stopping {setup : Setup} {host : Host} {source : String} {d u : DaemonState}
    {repo : ActiveRepo} (opens : Opens setup host source d u repo) :
    u.shutdownRequested = d.shutdownRequested := by
  cases opens <;> rfl

theorem stage_stopping {setup : Setup} {host : Host} {source : String} {d u : DaemonState}
    (stage : Stage setup host source d u) : u.shutdownRequested = d.shutdownRequested := by
  cases stage with
  | start => rfl
  | opened opens => exact opens_stopping opens
  | taken opens => exact (opens_stopping opens :)
  | registered opens free => exact (opens_stopping opens :)

/-- Only `Shutdown` stores the flag. -/
theorem change_stopping {setup : Setup} {host : Host} {request : Request} {d : DaemonState}
    {answer : Answer} (change : Change setup host request d answer) (other : request ≠ .shutdown) :
    answer.2.shutdownRequested = d.shutdownRequested := by
  cases change with
  | told => rfl
  | denied canonical unpoisoned opens fails reached =>
    rcases reached with rfl | rfl
    · exact opens_stopping opens
    · exact (opens_stopping opens :)
  | mounted canonical unpoisoned opens free => exact (opens_stopping opens :)
  | attached unpoisoned opens => exact opens_stopping opens
  | removed => rfl
  | crashed named stage => exact (stage_stopping stage :)
  | blocked => rfl
  | stopped => exact absurd rfl other

theorem dispatch_stopping (setup : Setup) (host : Host) (request : Request) (d : DaemonState) :
    (ProjgitRegistry.dispatch setup host request d).2.shutdownRequested =
      (d.shutdownRequested || decide (request = .shutdown)) := by
  by_cases stop : request = .shutdown
  · subst stop
    simp [ProjgitRegistry.dispatch]
  · simp [change_stopping (dispatch_change setup host request d) stop, stop]

theorem taken_setHandler (found : (s.handlerOf c).isSome) :
    Taken (s.setHandler c handler) d ↔
      if d = c then handler ≠ .queued ∧ handler ≠ .dropped else Taken s d := by
  unfold Taken
  rw [setHandler_handlerOf]
  by_cases same : d = c
  · subst same
    obtain ⟨old, there⟩ := Option.isSome_iff_exists.mp found
    simp [there]
  · simp [same]

theorem taken_setHandler_of_missing (missing : s.handlerOf c = none) :
    Taken (s.setHandler c handler) d ↔ Taken s d := by
  unfold Taken
  rw [setHandler_handlerOf]
  by_cases same : d = c
  · subst same
    simp [missing]
  · simp [same]

theorem waking_enqueue (stream : Reader) : Waking (s.enqueue stream) ↔ Waking s := by
  have fresh : s.handlerOf s.conns.length = none := by
    simp [Server.handlerOf]
  constructor
  · rintro ⟨d, reply, found⟩
    rw [enqueue_handlerOf] at found
    split at found
    · cases found
    · exact ⟨d, reply, found⟩
  · rintro ⟨d, reply, found⟩
    refine ⟨d, reply, ?_⟩
    rw [enqueue_handlerOf, if_neg]
    · exact found
    · rintro rfl
      rw [fresh] at found
      cases found

theorem unlisten_handlerOf :
    s.unlisten.handlerOf d = (s.conns[d]?).map fun conn => (dropQueued conn).handler := by
  simp only [Server.handlerOf, Server.unlisten, List.getElem?_map, Option.map_map]
  rfl

theorem waking_unlisten (there : Waking s.unlisten) : Waking s := by
  obtain ⟨d, reply, found⟩ := there
  rw [unlisten_handlerOf] at found
  obtain ⟨conn, known, same⟩ := Option.map_eq_some_iff.mp found
  refine ⟨d, reply, ?_⟩
  rw [Server.handlerOf, known, Option.map_some]
  unfold dropQueued at same
  split at same
  · cases same
  · rw [same]

theorem taken_unlisten (taken : Taken s.unlisten d) : Taken s d := by
  obtain ⟨handler, found, open_, kept⟩ := taken
  rw [unlisten_handlerOf] at found
  obtain ⟨conn, known, same⟩ := Option.map_eq_some_iff.mp found
  unfold dropQueued at same
  split at same
  · exact absurd same.symm kept
  · refine ⟨handler, ?_, open_, kept⟩
    rw [Server.handlerOf, known, Option.map_some, same]

theorem taken_setHandler_dropped (taken : Taken (s.setHandler c .dropped) d) : Taken s d := by
  cases found : s.handlerOf c with
  | none => exact (taken_setHandler_of_missing found).mp taken
  | some old =>
    have known : (s.handlerOf c).isSome := by simp [found]
    have inside := (taken_setHandler known).mp taken
    split at inside
    · exact absurd rfl inside.2
    · exact inside

theorem taken_settle_dropped (conn : Option ConnId) :
    Taken (s.settle conn .dropped) d → Taken s d := by
  cases conn with
  | none => exact id
  | some c => exact taken_setHandler_dropped

theorem setHandler_waking (fresh : ∀ reply, handler ≠ .waking reply)
    (there : Waking (s.setHandler c handler)) : Waking s := by
  obtain ⟨d, reply, found⟩ := there
  rw [setHandler_handlerOf] at found
  split at found
  · obtain ⟨old, -, made⟩ := Option.map_eq_some_iff.mp found
    exact absurd made (fresh reply)
  · exact ⟨d, reply, found⟩

theorem settle_waking (conn : Option ConnId) (fresh : ∀ reply, handler ≠ .waking reply) :
    Waking (s.settle conn handler) → Waking s := by
  cases conn with
  | none => exact id
  | some c => exact setHandler_waking fresh

theorem SetsUp.sound (moved : SetsUp config ok s t) (sound : Sound config s) : Sound config t := by
  obtain ⟨idle, asked, listening, waking, paced⟩ := sound
  have started : s.main.starting = true := by cases moved <;> simp [*, MainThread.starting]
  obtain ⟨going, none_, untaken⟩ := idle started
  have stopping : t.stopping = false := by
    cases moved <;> exact going
  have nobody : ¬ Waking t := by
    have before : ¬ Waking s := fun there => by simp [waking there] at going
    cases moved with
    | unmoded at_ => exact fun there => before (waking_unlisten there)
    | abandoned at_ => exact fun there => before (waking_unlisten there)
    | threadless at_ => exact fun there => before (waking_unlisten there)
    | _ => exact before
  have nowhere : ∀ c, ¬ Taken t c := by
    cases moved with
    | unmoded at_ => exact fun c there => untaken c (taken_unlisten there)
    | abandoned at_ => exact fun c there => untaken c (taken_unlisten there)
    | threadless at_ => exact fun c there => untaken c (taken_unlisten there)
    | _ => exact untaken
  refine ⟨fun _ => ⟨stopping, ?_, nowhere⟩, fun leaving => ?_, ?_, ?_, ?_⟩
  · cases moved with
    | ready at_ every => simp [MainThread.starting] at *
    | _ => exact none_
  · cases moved <;> simp [MainThread.leaving] at leaving
  · cases moved <;> simp_all [MainThread.listens]
  · exact fun there => absurd there nobody
  · cases moved <;> simp_all

@[simp] theorem settle_daemon (conn : Option ConnId) :
    (s.settle conn handler).daemon = s.daemon := by
  cases conn <;> rfl

@[simp] theorem settle_listening (conn : Option ConnId) :
    (s.settle conn handler).listening = s.listening := by
  cases conn <;> rfl

@[simp] theorem settle_maintenance (conn : Option ConnId) :
    (s.settle conn handler).maintenance = s.maintenance := by
  cases conn <;> rfl

theorem Serves.sound (moved : Serves config ok s t) (sound : Sound config s) : Sound config t := by
  obtain ⟨idle, asked, listening, waking, paced⟩ := sound
  have served : t.main.starting = false := by cases moved <;> rfl
  have stopping : t.stopping = s.stopping := by
    cases moved <;> simp [Server.stopping]
  have wakes : Waking t → Waking s := by
    cases moved with
    | left at_ stopping => exact settle_waking _ (by simp)
    | taken at_ => exact setHandler_waking (by simp)
    | threadless at_ => exact fun there => setHandler_waking (by simp) (waking_unlisten there)
    | unlistened at_ => exact waking_unlisten
    | _ => exact id
  refine ⟨fun starting => ?_, fun leaving => ?_, ?_, fun there => ?_, ?_⟩
  · rw [served] at starting
    cases starting
  · rw [stopping]
    cases moved with
    | left at_ flag => exact flag
    | joined at_ ended => exact asked (by rw [at_]; rfl)
    | unlistened at_ => exact asked (by rw [at_]; rfl)
    | socketRemoved at_ => exact asked (by rw [at_]; rfl)
    | pidRemoved at_ => exact asked (by rw [at_]; rfl)
    | _ => cases leaving
  · cases moved <;> simp_all [MainThread.listens]
  · rw [stopping]
    exact waking (wakes there)
  · cases moved <;> simpa using paced

theorem setHandler_sound (sound : Sound config s) (taken : Taken s c)
    (fresh : (∃ reply, handler = .waking reply) → s.stopping = true) :
    Sound config (s.setHandler c handler) := by
  refine ⟨fun starting => absurd taken ((sound.idle starting).2.2 c), sound.asked,
    sound.listening, fun there => ?_, sound.paced⟩
  by_cases wakes : ∃ reply, handler = .waking reply
  · exact fresh wakes
  · exact sound.waking (setHandler_waking (fun reply same => wakes ⟨reply, same⟩) there)

theorem enqueue_sound (sound : Sound config s) (stream : Reader) :
    Sound config (s.enqueue stream) := by
  refine ⟨fun starting => ?_, sound.asked, sound.listening,
    fun there => sound.waking ((waking_enqueue stream).mp there), sound.paced⟩
  obtain ⟨going, none_, untaken⟩ := sound.idle starting
  refine ⟨going, none_, fun d taken => ?_⟩
  obtain ⟨handler, found, open_, kept⟩ := taken
  rw [enqueue_handlerOf] at found
  split at found
  · cases found
    exact open_ rfl
  · exact untaken d ⟨handler, found, open_, kept⟩

theorem withDaemon_sound (sound : Sound config s) (taken : Taken s c) {d : DaemonState}
    (kept : s.stopping = true → d.shutdownRequested = true) :
    Sound config { s with daemon := d } := by
  obtain ⟨idle, asked, listening, waking, paced⟩ := sound
  exact ⟨fun starting => absurd taken ((idle starting).2.2 c), fun leaving => kept (asked leaving),
    listening, fun there => kept (waking there), paced⟩

theorem taken_of_handler (found : s.handlerOf c = some handler) (started : handler ≠ .queued)
    (kept : handler ≠ .dropped) : Taken s c := ⟨handler, found, started, kept⟩

theorem step_sound {a : Action} (moved : step config s a = some t) (sound : Sound config s) :
    Sound config t := by
  cases step_cases moved with
  | setsUp moved => exact moved.sound sound
  | serves moved => exact moved.sound sound
  | connected open_ => exact enqueue_sound sound _
  | @received c stream found =>
    have reading : s.handlerOf c = some .reading := by simp [Server.handlerOf, found]
    refine setHandler_sound sound (taken_of_handler reading (by simp) (by simp)) ?_
    rintro ⟨reply, same⟩
    unfold ProjgitServer.received at same
    split at same <;> cases same
  | @dispatched c host request handler found replies =>
    have taken := taken_of_handler found (by simp) (by simp)
    have flag := dispatch_stopping config.setup host request s.daemon
    refine setHandler_sound (withDaemon_sound sound taken fun stopping => ?_) taken ?_
    · rw [flag, show s.daemon.shutdownRequested = true from stopping, Bool.true_or]
    · rintro ⟨reply, same⟩
      cases replies with
      | stopped answer => rfl
      | _ => cases same
  | @woke c reply found open_ =>
    have there : (s.enqueue ⟨[], none⟩).handlerOf c = some (.waking reply) :=
      enqueue_handlerOf_of_some found
    refine setHandler_sound (enqueue_sound sound _)
      (taken_of_handler there (by simp) (by simp)) ?_
    rintro ⟨reply, same⟩
    cases same
  | unheard found deaf =>
    refine setHandler_sound sound (taken_of_handler found (by simp) (by simp)) ?_
    rintro ⟨reply, same⟩
    cases same
  | written found =>
    refine setHandler_sound sound (taken_of_handler found (by simp) (by simp)) ?_
    rintro ⟨reply, same⟩
    cases same
  | maintained moved started =>
    have paced := sound.paced started
    exact ⟨fun starting => absurd (sound.idle starting).2.1 started, sound.asked,
      sound.listening, sound.waking, fun _ => paced⟩
  | socketTaken => exact ⟨sound.idle, sound.asked, sound.listening, sound.waking, sound.paced⟩
  | pidTaken => exact ⟨sound.idle, sound.asked, sound.listening, sound.waking, sound.paced⟩

theorem init_sound (config : Config) (staleSocket stalePid : Bool) :
    Sound config (.init staleSocket stalePid) := by
  have nobody : ∀ c, (Server.init staleSocket stalePid).handlerOf c = none := fun c => rfl
  refine ⟨fun _ => ⟨rfl, rfl, fun c taken => ?_⟩, by simp [Server.init, MainThread.leaving], rfl,
    fun there => ?_, ?_⟩
  · obtain ⟨handler, found, -⟩ := taken
    cases (nobody c).symm.trans found
  · obtain ⟨c, reply, found⟩ := there
    cases (nobody c).symm.trans found
  · exact fun some_ => absurd rfl some_

/-! ### Connections that wait -/

/-- The connections that no thread has, in the order in which they will be taken. -/
def waiting (s : Server) : List ConnId :=
  match s.main with
  | .check (some c) | .spawn c => c :: s.backlog
  | _ => s.backlog

structure Waits (s : Server) : Prop where
  nodup : (waiting s).Nodup
  queued : ∀ c ∈ waiting s, s.handlerOf c = some .queued

theorem Waits.of_same (waits : Waits s) (list : waiting t = waiting s)
    (handlers : ∀ c, s.handlerOf c = some .queued → t.handlerOf c = some .queued) : Waits t := by
  refine ⟨list ▸ waits.nodup, fun c member => handlers c (waits.queued c ?_)⟩
  rwa [list] at member

theorem Waits.setHandler (waits : Waits s) (found : s.handlerOf c = some handler)
    (started : handler ≠ .queued) (next : Handler) : Waits (s.setHandler c next) := by
  refine waits.of_same rfl fun d queued => ?_
  rw [setHandler_handlerOf, if_neg]
  · exact queued
  · rintro rfl
    cases found.symm.trans queued
    exact started rfl

theorem Waits.enqueue (waits : Waits s) (stream : Reader) : Waits (s.enqueue stream) := by
  have list : waiting (s.enqueue stream) = waiting s ++ [s.conns.length] := by
    simp only [waiting, Server.enqueue]
    split <;> simp
  have fresh : s.handlerOf s.conns.length = none := by simp [Server.handlerOf]
  refine ⟨?_, fun d member => ?_⟩
  · rw [list, List.nodup_append]
    refine ⟨waits.nodup, by simp, ?_⟩
    rintro d member e last rfl
    cases List.mem_singleton.mp last
    cases fresh.symm.trans (waits.queued _ member)
  · rw [enqueue_handlerOf]
    split
    · rfl
    · rename_i other
      rw [list, List.mem_append, List.mem_singleton] at member
      exact waits.queued d (member.resolve_right other)

theorem waits_nobody (empty : waiting t = []) : Waits t := by
  constructor <;> simp [empty]

theorem SetsUp.waits (moved : SetsUp config ok s t) (waits : Waits s) : Waits t := by
  have before : waiting s = s.backlog := by cases moved <;> simp [waiting, *]
  cases moved with
  | unmoded at_ => exact waits_nobody (by simp [waiting, Server.unlisten])
  | abandoned at_ => exact waits_nobody (by simp [waiting, Server.unlisten])
  | threadless at_ => exact waits_nobody (by simp [waiting, Server.unlisten])
  | _ => exact waits.of_same (by rw [before]; rfl) fun _ queued => queued

theorem settle_waits {conn : Option ConnId} {next : MainThread}
    (held : waiting s = conn.toList ++ s.backlog) (waits : Waits s) (handler : Handler)
    (passed : waiting { s.settle conn handler with main := next } = s.backlog) :
    Waits { s.settle conn handler with main := next } := by
  obtain ⟨nodup, queued⟩ := waits
  cases conn with
  | none =>
    refine ⟨passed ▸ (held ▸ nodup :), fun d member => queued d ?_⟩
    rw [passed] at member
    rwa [held]
  | some c =>
    rw [held, Option.toList_some, List.singleton_append] at nodup queued
    rw [List.nodup_cons] at nodup
    refine ⟨passed ▸ nodup.2, fun d member => ?_⟩
    rw [passed] at member
    have other : d ≠ c := fun same => nodup.1 (same ▸ member)
    have kept := queued d (List.mem_cons_of_mem c member)
    have same : (s.setHandler c handler).handlerOf d = s.handlerOf d :=
      setHandler_handlerOf.trans (if_neg other)
    exact same.trans kept

theorem Serves.waits (moved : Serves config ok s t) (waits : Waits s) : Waits t := by
  cases moved with
  | accepted at_ next =>
    obtain ⟨nodup, queued⟩ := waits
    have list : waiting s = s.backlog := by simp [waiting, at_]
    rw [list, next] at nodup queued
    exact ⟨nodup, queued⟩
  | @left conn at_ flag =>
    have held : waiting s = conn.toList ++ s.backlog := by cases conn <;> simp [waiting, at_]
    exact settle_waits held waits _ (by cases conn <;> simp [waiting] <;> rfl)
  | @taken c at_ =>
    have held : waiting s = (some c).toList ++ s.backlog := by simp [waiting, at_]
    exact settle_waits held waits .reading rfl
  | threadless at_ => exact waits_nobody (by simp [waiting, Server.unlisten])
  | unlistened at_ => exact waits_nobody (by simp [waiting, Server.unlisten])
  | _ => exact waits.of_same (by simp [waiting, *]) fun _ queued => queued

theorem step_waits {a : Action} (moved : step config s a = some t) (waits : Waits s) : Waits t := by
  cases step_cases moved with
  | setsUp moved => exact moved.waits waits
  | serves moved => exact moved.waits waits
  | connected open_ => exact waits.enqueue _
  | @received c stream found =>
    have reading : s.handlerOf c = some .reading := by simp [Server.handlerOf, found]
    exact waits.setHandler reading (by simp) _
  | @dispatched c host request handler found replies =>
    have same : Waits { s with
        daemon := (ProjgitRegistry.dispatch config.setup host request s.daemon).2 } :=
      ⟨waits.nodup, waits.queued⟩
    exact same.setHandler found (by simp) _
  | woke found open_ =>
    exact (waits.enqueue _).setHandler (enqueue_handlerOf_of_some found) (by simp) _
  | unheard found deaf => exact waits.setHandler found (by simp) _
  | written found => exact waits.setHandler found (by simp) _
  | _ => exact ⟨waits.nodup, waits.queued⟩

theorem init_waits (staleSocket stalePid : Bool) : Waits (.init staleSocket stalePid) :=
  waits_nobody rfl

/-! ### The flag is heard -/

/-- From here the main thread goes to sleep, or is asleep, without another look at the flag. -/
def MainThread.dozes : MainThread → Bool
  | .accept | .spawn _ => true
  | _ => false

/-- There is a connection to wake the main thread up, or a thread that is to make one. -/
def Heard (s : Server) : Prop :=
  s.stopping = true → s.main.dozes = true → s.backlog ≠ [] ∨ Waking s

/-- A self-connect that does not get to our listener. -/
def missed (s : Server) : Action → Option Unit
  | .wake _ ok => if ok && s.reachable then none else some ()
  | _ => none

theorem Heard.setHandler (heard : Heard s) (found : s.handlerOf c = some handler)
    (other : ∀ reply, handler ≠ .waking reply) (next : Handler) : Heard (s.setHandler c next) := by
  intro flag dozes
  rcases heard flag dozes with queue | ⟨d, reply, wakes⟩
  · exact Or.inl queue
  · refine Or.inr ⟨d, reply, ?_⟩
    rw [setHandler_handlerOf, if_neg]
    · exact wakes
    · rintro rfl
      cases found.symm.trans wakes
      exact other reply rfl

theorem Serves.heard (moved : Serves config ok s t) (waits : Waits s) (heard : Heard s) :
    Heard t := by
  cases moved with
  | admitted at_ going =>
    intro flag
    cases going.symm.trans flag
  | skipped at_ going =>
    intro flag
    cases going.symm.trans flag
  | @taken c at_ =>
    -- The flag may have been stored since the main thread looked.
    have queued := waits.queued c (by simp [waiting, at_])
    have dozed : Heard { s with main := .accept } := fun flag _ => heard flag (by rw [at_]; rfl)
    exact dozed.setHandler queued (by simp) .reading
  | _ => exact fun _ dozes => by cases dozes

def Action.isMain : Action → Bool
  | .main _ => true
  | _ => false

theorem step_main {a : Action} (moved : step config s a = some t) (other : a.isMain = false) :
    t.main = s.main := by
  cases step_cases moved with
  | setsUp moved => cases other
  | serves moved => cases other
  | _ => rfl

theorem Sound.started (sound : Sound config s) (stopping : s.stopping = true) :
    s.main.starting ≠ true := by
  intro starting
  rw [(sound.idle starting).1] at stopping
  cases stopping

theorem SetsUp.starting (moved : SetsUp config ok s t) : s.main.starting = true := by
  cases moved <;> simp [*, MainThread.starting]

def Passed (s : Server) (c : ConnId) : Prop := Taken s c ∨ s.main = .spawn c

theorem Serves.passed (moved : Serves config ok s t) (stopping : s.stopping = true)
    (passed : Passed t d) : Passed s d := by
  cases moved with
  | left at_ flag =>
    rcases passed with taken | spawned
    · exact Or.inl (taken_settle_dropped _ taken)
    · cases spawned
  | admitted at_ going => cases going.symm.trans stopping
  | @taken c at_ =>
    rcases passed with taken | spawned
    · by_cases same : d = c
      · exact Or.inr (same ▸ at_)
      · obtain ⟨handler, found, kept⟩ := taken
        refine Or.inl ⟨handler, ?_, kept⟩
        have here : (s.setHandler c .reading).handlerOf d = some handler := found
        rwa [setHandler_handlerOf, if_neg same] at here
    · cases spawned
  | threadless at_ =>
    rcases passed with taken | spawned
    · exact Or.inl (taken_setHandler_dropped (taken_unlisten taken))
    · cases spawned
  | unlistened at_ =>
    rcases passed with taken | spawned
    · exact Or.inl (taken_unlisten taken)
    · cases spawned
  | _ =>
    rcases passed with taken | spawned
    · exact Or.inl taken
    · cases spawned

theorem run_sound {staleSocket stalePid : Bool} {acts : List Action}
    (run : exec (step config) (.init staleSocket stalePid) acts = some s) : Sound config s :=
  exec_keeps (fun _ _ _ moved sound => step_sound moved sound) run
    (init_sound config staleSocket stalePid)

end

/- One client that asks for a shutdown, on a server with maintenance and room for one queued
   connection. -/

def shutdownParse (body : Bytes) : Option Json :=
  (encodeRequest .shutdown).bind fun j => if body = j.bytes then some j else none

def shutdownFrame : Bytes := (writeMessage vecWriter requestCodec .shutdown []).2

def smallConfig : Config := ⟨true, some 60, none, 1, plainSetup, "", shutdownParse⟩

def askToStop : List Action :=
  List.replicate 6 (.main true) ++ [.connect ⟨shutdownFrame, none⟩, .main true, .main true,
    .main true, .receive 0, .dispatch 0 (plainHost (.ok ()))]

def wakeAndLeave : List Action :=
  [.wake 0 true, .main true, .main true, .maintain, .main true, .write 0] ++
    List.replicate 3 (.main true)

/-- The system has no descriptor left for the self-connect. -/
def wakeInVain : List Action := [.wake 0 false, .write 0, .maintain]

theorem askToStop_result :
    (exec (step smallConfig) (.init true false) askToStop).map
        (fun s => (s.stopping, s.main, s.backlog)) = some (true, .accept, []) ∧
    (exec (step smallConfig) (.init true false) (askToStop ++ wakeAndLeave)).map
        (fun s => (s.main, s.maintenance)) = some (.returned true, some .finished) ∧
    (exec (step smallConfig) (.init true false) (askToStop ++ wakeInVain)).map
        (fun s => (s.main, s.socketFile, (step smallConfig s (.main true)).isNone)) =
      some (.accept, .ours, true) := by
  decide +kernel

end ProjgitServer

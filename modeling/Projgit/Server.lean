import Projgit.AnswerBound

/-!
`run` of the daemon (`server.rs`) with everything that goes on beside it: the threads that
serve connections, the maintenance thread, clients that connect, stall and hang up, and other
processes at the daemon's paths. One step is one system call or one section under a lock of one
thread, in any order. The end of the process, which would stop the connection threads, is left
out: they may go on.
-/
namespace ProjgitServer
open ProjgitRegistry ProjgitProtocol LabelledRuns JsonText Utf8Bytes

abbrev ConnId := Nat

/-- Where the main thread stands in `run`. `check` holds what `incoming` has yielded, and
    `fs::write` is two calls, `createPid` and `writePid`. -/
inductive MainThread where
  | clear | bind | chmod | createPid | writePid | abandon | spawnMaintenance
  | accept
  | check (conn : Option ConnId)
  | spawn (conn : ConnId)
  | join | dropListener | removeSocket | removePid
  | returned (ok : Bool)
  | panicked
  deriving DecidableEq

/-- Where a thread stands in `handle_connection`. A connection that no thread has taken is
    queued, and dropped with the listener. -/
inductive Handler where
  | queued
  | dropped
  | reading
  | dispatching (request : Request)
  | waking (reply : Response)
  | writing (reply : Response)
  | closed (sent : Bytes)

/-- What the peer sends, and how far it was served. -/
structure Conn where
  stream : Reader
  handler : Handler

/-- Where the maintenance thread stands; `slept` is in milliseconds. -/
inductive Maintenance where
  | sleeping (slept : Nat)
  | due
  | locking
  | running (gitDir : PathBuf)
  | finished
  deriving DecidableEq

/-- What is at one of the daemon's two paths: nothing, a file of another or an earlier process,
    one that was created or truncated and not filled, or ours: the socket we listen on, our pid. -/
inductive FileAt where
  | absent | foreign | torn | ours
  deriving DecidableEq

/-- `envInterval` is `PROJGIT_MAINTENANCE_INTERVAL_SECS` as `maintenance_interval_secs` reads it,
    `backlog` the number of connections the system queues. -/
structure Config where
  pidFile : Bool
  maintenanceIntervalSecs : Option Nat
  envInterval : Option Nat
  backlog : Nat
  setup : Setup
  jsonText : String
  parse : Bytes → Option Json

/-- The interval at which there is maintenance, if there is any: a zero on the command line
    turns it off whatever the environment says. -/
def Config.maintenance (config : Config) : Option Nat :=
  (config.maintenanceIntervalSecs.or (config.envInterval.filter (0 < ·))).filter (0 < ·)

structure Server where
  main : MainThread
  daemon : DaemonState
  listening : Bool
  socketFile : FileAt
  pidFile : FileAt
  backlog : List ConnId
  conns : List Conn
  maintenance : Option Maintenance

def leftOver (there : Bool) : FileAt := if there then .foreign else .absent

/-- A process that has not done anything yet, on a disk with what an earlier one left. -/
def Server.init (staleSocket stalePid : Bool) : Server :=
  ⟨.clear, .new, false, leftOver staleSocket, leftOver stalePid, [], [], none⟩

def Server.stopping (s : Server) : Bool := s.daemon.shutdownRequested

def Server.reachable (s : Server) : Bool := s.listening && decide (s.socketFile = .ours)

def Server.handlerOf (s : Server) (c : ConnId) : Option Handler := (s.conns[c]?).map Conn.handler

def Server.setHandler (s : Server) (c : ConnId) (handler : Handler) : Server :=
  { s with conns := s.conns.modify c fun conn => { conn with handler := handler } }

/-- What becomes of the connection that was accepted, if one was. -/
def Server.settle (s : Server) (conn : Option ConnId) (handler : Handler) : Server :=
  match conn with
  | some c => s.setHandler c handler
  | none => s

def Server.enqueue (s : Server) (stream : Reader) : Server :=
  { s with conns := s.conns ++ [⟨stream, .queued⟩], backlog := s.backlog ++ [s.conns.length] }

/-- Of the main thread and of a self-connect, `ok` is whether the system grants the call. Another
    process that takes a path removes the file there and may leave its own, as a second daemon on
    the same paths does. -/
inductive Action where
  | main (ok : Bool)
  | connect (stream : Reader)
  | receive (conn : ConnId)
  | dispatch (conn : ConnId) (host : Host)
  | wake (conn : ConnId) (ok : Bool)
  | write (conn : ConnId)
  | maintain
  | takeSocket (leaves : Bool)
  | takePid (leaves : Bool)

def unlinkIf (ok : Bool) (file : FileAt) : FileAt := if ok then .absent else file

/-- Connections that were never accepted go with the listener. -/
def dropQueued (conn : Conn) : Conn :=
  match conn.handler with
  | .queued => { conn with handler := .dropped }
  | _ => conn

def Server.unlisten (s : Server) : Server :=
  { s with listening := false, backlog := [], conns := s.conns.map dropQueued }

section
variable (config : Config)

def mainStep (s : Server) (ok : Bool) : Option Server :=
  match s.main with
  | .clear => some { s with main := .bind, socketFile := unlinkIf ok s.socketFile }
  | .bind =>
    if ok then
      -- A name that is taken cannot be bound.
      if s.socketFile = .absent then
        some { s with main := .chmod, listening := true, socketFile := .ours }
      else none
    else some { s with main := .returned false }
  | .chmod => some (if ok then { s with main := .createPid }
      else { s.unlisten with main := .returned false })
  | .createPid =>
    if config.pidFile then
      some (if ok then { s with main := .writePid, pidFile := .torn }
        else { s with main := .abandon })
    else some { s with main := .spawnMaintenance }
  | .writePid =>
    -- What has taken the place of the file that is open stays.
    some (if ok then { s with main := .spawnMaintenance,
                              pidFile := if s.pidFile = .torn then .ours else s.pidFile }
      else { s with main := .abandon })
  -- No pid file, no daemon.
  | .abandon => some { s.unlisten with main := .returned false,
                                       socketFile := unlinkIf ok s.socketFile }
  | .spawnMaintenance =>
    match config.maintenance with
    | none => some { s with main := .accept }
    | some _ =>
      some (if ok then { s with main := .accept, maintenance := some (.sleeping 0) }
        else { s.unlisten with main := .panicked })
  | .accept =>
    if ok then
      match s.backlog with
      | [] => none
      | c :: rest => some { s with main := .check (some c), backlog := rest }
    else some { s with main := .check none }
  | .check conn =>
    if s.stopping then some { s.settle conn .dropped with main := .join }
    else
      match conn with
      | some c => some { s with main := .spawn c }
      | none => some { s with main := .accept }
  -- `std::thread::spawn` panics when the system gives no thread, and the files stay.
  | .spawn c =>
    some (if ok then { s.setHandler c .reading with main := .accept }
      else { (s.setHandler c .dropped).unlisten with main := .panicked })
  | .join =>
    match s.maintenance with
    | none | some .finished => some { s with main := .dropListener }
    | _ => none
  | .dropListener =>
    some { s.unlisten with main := .removeSocket }
  | .removeSocket => some { s with main := .removePid, socketFile := unlinkIf ok s.socketFile }
  | .removePid =>
    some { s with main := .returned true,
                  pidFile := if config.pidFile && ok then .absent else s.pidFile }
  | .returned _ | .panicked => none

def received (stream : Reader) : Handler :=
  match (readMessage config.parse requestCodec stream).1 with
  | .error .unexpectedEof => .closed []
  | .error e => .closed (writeMessage vecWriter responseCodec
      (.err Codes.protocolError (frameErrorText config.jsonText e)) []).2
  | .ok request => .dispatching request

def receiveStep (s : Server) (c : ConnId) : Option Server :=
  match s.conns[c]? with
  | some ⟨stream, .reading⟩ =>
    some (s.setHandler c (received config stream))
  | _ => none

def replied (answer : Option Response) (request : Request) : Handler :=
  match answer, request with
  | none, _ => .closed []
  | some reply, .shutdown => .waking reply
  | some reply, _ => .writing reply

/-- `dispatch`, up to where `request_shutdown` has stored the flag. -/
def dispatchStep (s : Server) (c : ConnId) (host : Host) : Option Server :=
  match s.handlerOf c with
  | some (.dispatching request) =>
    let answer := ProjgitRegistry.dispatch config.setup host request s.daemon
    some (Server.setHandler { s with daemon := answer.2 } c (replied answer.1 request))
  | _ => none

/-- The self-connect of `request_shutdown`, whose error is dropped: it waits while the queue is
    full, and fails when our listener is not at the path or the system refuses. -/
def wakeStep (s : Server) (c : ConnId) (ok : Bool) : Option Server :=
  match s.handlerOf c with
  | some (.waking reply) =>
    if ok && s.reachable then
      if s.backlog.length < config.backlog then
        some ((s.enqueue ⟨[], none⟩).setHandler c (.writing reply))
      else none
    else some (s.setHandler c (.writing reply))
  | _ => none

def writeStep (s : Server) (c : ConnId) : Option Server :=
  match s.handlerOf c with
  | some (.writing reply) =>
    some (s.setHandler c (.closed (writeMessage vecWriter responseCodec reply []).2))
  | _ => none

def maintainStep (s : Server) : Option Server :=
  match s.maintenance, config.maintenance with
  | some (.sleeping slept), some secs =>
    let next : Maintenance := if slept < 1000 * secs then
      if s.stopping then .finished else .sleeping (slept + 250)
    else .due
    some { s with maintenance := some next }
  | some .due, _ =>
    some { s with maintenance := some (if s.stopping then .finished else .locking) }
  | some .locking, _ =>
    -- A poisoned lock counts as not attached.
    let next : Maintenance := match s.daemon.poisoned, s.daemon.active with
      | false, some repo => .running repo.gitDir
      | _, _ => .sleeping 0
    some { s with maintenance := some next }
  | some (.running _), _ => some { s with maintenance := some (.sleeping 0) }
  | _, _ => none

def step (s : Server) : Action → Option Server
  | .main ok => mainStep config s ok
  | .connect stream =>
    if s.reachable ∧ s.backlog.length < config.backlog then some (s.enqueue stream) else none
  | .receive c => receiveStep config s c
  | .dispatch c host => dispatchStep config s c host
  | .wake c ok => wakeStep config s c ok
  | .write c => writeStep s c
  | .maintain => maintainStep config s
  | .takeSocket leaves => some { s with socketFile := leftOver leaves }
  | .takePid leaves => some { s with pidFile := leftOver leaves }

end

/-! ### Connections -/

section
variable {s : Server} {c d : Nat} {handler : Handler} {stream : Reader}

@[simp] theorem setHandler_main : (s.setHandler c handler).main = s.main := rfl
@[simp] theorem setHandler_daemon : (s.setHandler c handler).daemon = s.daemon := rfl
@[simp] theorem setHandler_listening : (s.setHandler c handler).listening = s.listening := rfl
@[simp] theorem setHandler_socketFile : (s.setHandler c handler).socketFile = s.socketFile := rfl
@[simp] theorem setHandler_pidFile : (s.setHandler c handler).pidFile = s.pidFile := rfl
@[simp] theorem setHandler_backlog : (s.setHandler c handler).backlog = s.backlog := rfl
@[simp] theorem setHandler_maintenance :
    (s.setHandler c handler).maintenance = s.maintenance := rfl

@[simp] theorem setHandler_length : (s.setHandler c handler).conns.length = s.conns.length := by
  simp [Server.setHandler]

theorem setHandler_handlerOf : (s.setHandler c handler).handlerOf d =
    if d = c then (s.handlerOf d).map fun _ => handler else s.handlerOf d := by
  simp only [Server.handlerOf, Server.setHandler, List.getElem?_modify]
  by_cases same : c = d
  · subst same
    cases s.conns[c]? <;> simp
  · cases s.conns[d]? <;> simp [same, Ne.symm same]

theorem setHandler_stream :
    ((s.setHandler c handler).conns[d]?).map Conn.stream = (s.conns[d]?).map Conn.stream := by
  simp only [Server.setHandler, List.getElem?_modify]
  cases s.conns[d]? with
  | none => rfl
  | some conn =>
    by_cases same : c = d <;> simp [same]

theorem enqueue_handlerOf : (s.enqueue stream).handlerOf d =
    if d = s.conns.length then some .queued else s.handlerOf d := by
  simp only [Server.handlerOf, Server.enqueue]
  by_cases here : d = s.conns.length
  · subst here
    simp
  · rw [if_neg here, List.getElem?_append]
    split
    · rfl
    · have none_ : s.conns[d]? = none := List.getElem?_eq_none (by omega)
      rw [none_, List.getElem?_eq_none]
      rw [List.length_singleton]
      omega

theorem enqueue_handlerOf_of_some (found : s.handlerOf c = some handler) :
    (s.enqueue stream).handlerOf c = some handler := by
  rw [enqueue_handlerOf, if_neg]
  · exact found
  · rintro rfl
    simp [Server.handlerOf] at found

@[simp] theorem unlisten_daemon : s.unlisten.daemon = s.daemon := rfl
@[simp] theorem unlisten_listening : s.unlisten.listening = false := rfl
@[simp] theorem unlisten_socketFile : s.unlisten.socketFile = s.socketFile := rfl
@[simp] theorem unlisten_pidFile : s.unlisten.pidFile = s.pidFile := rfl
@[simp] theorem unlisten_maintenance : s.unlisten.maintenance = s.maintenance := rfl

theorem dropQueued_stream (conn : Conn) : (dropQueued conn).stream = conn.stream := by
  unfold dropQueued
  split <;> rfl

end

/-! ### What a step does -/

/-- The first half of `run`, up to the accept loop, and its failed ends. -/
inductive SetsUp (config : Config) (ok : Bool) : Server → Server → Prop
  | cleared {s} (at_ : s.main = .clear) :
      SetsUp config ok s { s with main := .bind, socketFile := unlinkIf ok s.socketFile }
  | bound {s} (at_ : s.main = .bind) :
      SetsUp config ok s { s with main := .chmod, listening := true, socketFile := .ours }
  | unbound {s} (at_ : s.main = .bind) : SetsUp config ok s { s with main := .returned false }
  | moded {s} (at_ : s.main = .chmod) : SetsUp config ok s { s with main := .createPid }
  | unmoded {s} (at_ : s.main = .chmod) :
      SetsUp config ok s { s.unlisten with main := .returned false }
  | pidCreated {s} (at_ : s.main = .createPid) (asked : config.pidFile = true) :
      SetsUp config ok s { s with main := .writePid, pidFile := .torn }
  | pidRefused {s} (at_ : s.main = .createPid) : SetsUp config ok s { s with main := .abandon }
  | pidSkipped {s} (at_ : s.main = .createPid) (unasked : config.pidFile = false) :
      SetsUp config ok s { s with main := .spawnMaintenance }
  | pidWritten {s} (at_ : s.main = .writePid) :
      SetsUp config ok s { s with main := .spawnMaintenance,
                                  pidFile := if s.pidFile = .torn then .ours else s.pidFile }
  | pidFailed {s} (at_ : s.main = .writePid) : SetsUp config ok s { s with main := .abandon }
  | abandoned {s} (at_ : s.main = .abandon) :
      SetsUp config ok s { s.unlisten with main := .returned false,
                                           socketFile := unlinkIf ok s.socketFile }
  | unattended {s} (at_ : s.main = .spawnMaintenance) (never : config.maintenance = none) :
      SetsUp config ok s { s with main := .accept }
  | ready {s secs} (at_ : s.main = .spawnMaintenance) (every : config.maintenance = some secs) :
      SetsUp config ok s { s with main := .accept, maintenance := some (.sleeping 0) }
  | threadless {s} (at_ : s.main = .spawnMaintenance) :
      SetsUp config ok s { s.unlisten with main := .panicked }

/-- The accept loop and what follows it. -/
inductive Serves (config : Config) (ok : Bool) : Server → Server → Prop
  | accepted {s c rest} (at_ : s.main = .accept) (next : s.backlog = c :: rest) :
      Serves config ok s { s with main := .check (some c), backlog := rest }
  | acceptFailed {s} (at_ : s.main = .accept) : Serves config ok s { s with main := .check none }
  | left {s conn} (at_ : s.main = .check conn) (stopping : s.stopping = true) :
      Serves config ok s { s.settle conn .dropped with main := .join }
  | admitted {s c} (at_ : s.main = .check (some c)) (going : s.stopping = false) :
      Serves config ok s { s with main := .spawn c }
  | skipped {s} (at_ : s.main = .check none) (going : s.stopping = false) :
      Serves config ok s { s with main := .accept }
  | taken {s c} (at_ : s.main = .spawn c) :
      Serves config ok s { s.setHandler c .reading with main := .accept }
  | threadless {s c} (at_ : s.main = .spawn c) :
      Serves config ok s { (s.setHandler c .dropped).unlisten with main := .panicked }
  | joined {s} (at_ : s.main = .join)
      (ended : s.maintenance = none ∨ s.maintenance = some .finished) :
      Serves config ok s { s with main := .dropListener }
  | unlistened {s} (at_ : s.main = .dropListener) :
      Serves config ok s { s.unlisten with main := .removeSocket }
  | socketRemoved {s} (at_ : s.main = .removeSocket) :
      Serves config ok s { s with main := .removePid, socketFile := unlinkIf ok s.socketFile }
  | pidRemoved {s} (at_ : s.main = .removePid) :
      Serves config ok s { s with main := .returned true,
                                  pidFile := if config.pidFile && ok then .absent else s.pidFile }

section
variable {config : Config} {s t : Server} {ok : Bool}

theorem mainStep_cases (moved : mainStep config s ok = some t) :
    SetsUp config ok s t ∨ Serves config ok s t := by
  unfold mainStep at moved
  split at moved
  · cases moved
    exact .inl (.cleared ‹_›)
  · split at moved
    · split at moved
      · cases moved
        exact .inl (.bound ‹_›)
      · cases moved
    · cases moved
      exact .inl (.unbound ‹_›)
  · split at moved
    · cases moved
      exact .inl (.moded ‹_›)
    · cases moved
      exact .inl (.unmoded ‹_›)
  · split at moved
    · split at moved
      · cases moved
        exact .inl (.pidCreated ‹_› ‹_›)
      · cases moved
        exact .inl (.pidRefused ‹_›)
    · cases moved
      exact .inl (.pidSkipped ‹_› (Bool.not_eq_true _ ▸ ‹_›))
  · split at moved
    · cases moved
      exact .inl (.pidWritten ‹_›)
    · cases moved
      exact .inl (.pidFailed ‹_›)
  · cases moved
    exact .inl (.abandoned ‹_›)
  · split at moved
    · cases moved
      exact .inl (.unattended ‹_› ‹_›)
    · split at moved
      · cases moved
        exact .inl (.ready ‹_› ‹_›)
      · cases moved
        exact .inl (.threadless ‹_›)
  · split at moved
    · split at moved
      · cases moved
      · cases moved
        exact .inr (.accepted ‹_› ‹_›)
    · cases moved
      exact .inr (.acceptFailed ‹_›)
  · split at moved
    · cases moved
      exact .inr (.left ‹_› ‹_›)
    · have going : s.stopping = false := Bool.not_eq_true _ ▸ ‹_›
      split at moved
      · cases moved
        exact .inr (.admitted ‹_› going)
      · cases moved
        exact .inr (.skipped ‹_› going)
  · split at moved
    · cases moved
      exact .inr (.taken ‹_›)
    · cases moved
      exact .inr (.threadless ‹_›)
  · split at moved
    · cases moved
      exact .inr (.joined ‹_› (.inl ‹_›))
    · cases moved
      exact .inr (.joined ‹_› (.inr ‹_›))
    · cases moved
  · cases moved
    exact .inr (.unlistened ‹_›)
  · cases moved
    exact .inr (.socketRemoved ‹_›)
  · cases moved
    exact .inr (.pidRemoved ‹_›)
  · cases moved
  · cases moved

inductive Replies (config : Config) (host : Host) (d : DaemonState) : Request → Handler → Prop
  | crashed {request}
      (lost : (ProjgitRegistry.dispatch config.setup host request d).1 = none) :
      Replies config host d request (.closed [])
  | stopped {reply}
      (answer : (ProjgitRegistry.dispatch config.setup host .shutdown d).1 = some reply) :
      Replies config host d .shutdown (.waking reply)
  | answered {request reply} (other : request ≠ .shutdown)
      (answer : (ProjgitRegistry.dispatch config.setup host request d).1 = some reply) :
      Replies config host d request (.writing reply)

theorem receiveStep_cases {c : Nat} (moved : receiveStep config s c = some t) :
    ∃ stream, s.conns[c]? = some ⟨stream, .reading⟩ ∧
      t = s.setHandler c (received config stream) := by
  unfold receiveStep at moved
  split at moved
  · cases moved
    exact ⟨_, ‹_›, rfl⟩
  · cases moved

theorem dispatchStep_cases {c : Nat} {host : Host} (moved : dispatchStep config s c host = some t) :
    ∃ request handler, s.handlerOf c = some (.dispatching request) ∧
      Replies config host s.daemon request handler ∧
      t = Server.setHandler
        { s with daemon := (ProjgitRegistry.dispatch config.setup host request s.daemon).2 }
        c handler := by
  unfold dispatchStep at moved
  split at moved
  · rename_i request found
    cases moved
    refine ⟨request, _, found, ?_, rfl⟩
    cases answer : (ProjgitRegistry.dispatch config.setup host request s.daemon).1 with
    | none => exact .crashed answer
    | some reply =>
      by_cases stop : request = .shutdown
      · subst stop
        exact .stopped answer
      · have same : replied (some reply) request = .writing reply := by
          cases request <;> first | rfl | exact absurd rfl stop
        rw [same]
        exact .answered stop answer
  · cases moved

/-- What a step does, and what it finds. -/
inductive Steps (config : Config) (s : Server) : Action → Server → Prop
  | setsUp {granted u} (moved : SetsUp config granted s u) : Steps config s (.main granted) u
  | serves {granted u} (moved : Serves config granted s u) : Steps config s (.main granted) u
  | connected {stream} (open_ : s.reachable = true) :
      Steps config s (.connect stream) (s.enqueue stream)
  | received {c stream} (found : s.conns[c]? = some ⟨stream, .reading⟩) :
      Steps config s (.receive c) (s.setHandler c (received config stream))
  | dispatched {c host request handler} (found : s.handlerOf c = some (.dispatching request))
      (replies : Replies config host s.daemon request handler) :
      Steps config s (.dispatch c host) (Server.setHandler
        { s with daemon := (ProjgitRegistry.dispatch config.setup host request s.daemon).2 }
        c handler)
  | woke {c reply} (found : s.handlerOf c = some (.waking reply)) (open_ : s.reachable = true) :
      Steps config s (.wake c true) ((s.enqueue ⟨[], none⟩).setHandler c (.writing reply))
  | unheard {c granted reply} (found : s.handlerOf c = some (.waking reply))
      (deaf : (granted && s.reachable) = false) :
      Steps config s (.wake c granted) (s.setHandler c (.writing reply))
  | written {c reply} (found : s.handlerOf c = some (.writing reply)) :
      Steps config s (.write c)
        (s.setHandler c (.closed (writeMessage vecWriter responseCodec reply []).2))
  | maintained {next} (moved : maintainStep config s = some { s with maintenance := some next })
      (started : s.maintenance ≠ none) :
      Steps config s .maintain { s with maintenance := some next }
  | socketTaken {leaves} :
      Steps config s (.takeSocket leaves) { s with socketFile := leftOver leaves }
  | pidTaken {leaves} : Steps config s (.takePid leaves) { s with pidFile := leftOver leaves }

theorem wakeStep_cases {c : Nat} (moved : wakeStep config s c ok = some t) :
    Steps config s (.wake c ok) t := by
  unfold wakeStep at moved
  split at moved
  · rename_i reply found
    split at moved
    · rename_i heard
      obtain ⟨rfl, open_⟩ := Bool.and_eq_true_iff.mp heard
      split at moved
      · cases moved
        exact .woke found open_
      · cases moved
    · rename_i deaf
      cases moved
      exact .unheard found (Bool.not_eq_true _ ▸ deaf)
  · cases moved

theorem writeStep_cases {c : Nat} (moved : writeStep s c = some t) :
    Steps config s (.write c) t := by
  unfold writeStep at moved
  split at moved
  · cases moved
    exact .written ‹_›
  · cases moved

theorem maintainStep_cases (moved : maintainStep config s = some t) :
    Steps config s .maintain t := by
  have made : ∃ next, t = { s with maintenance := some next } ∧ s.maintenance ≠ none := by
    unfold maintainStep at moved
    split at moved
    · cases moved
      exact ⟨_, rfl, by simp_all⟩
    · cases moved
      exact ⟨_, rfl, by simp_all⟩
    · cases moved
      exact ⟨_, rfl, by simp_all⟩
    · cases moved
      exact ⟨_, rfl, by simp_all⟩
    · cases moved
  obtain ⟨next, rfl, started⟩ := made
  exact .maintained moved started

theorem step_cases {a : Action} (moved : step config s a = some t) : Steps config s a t := by
  cases a with
  | main ok =>
    rcases mainStep_cases moved with setsUp | serves
    · exact .setsUp setsUp
    · exact .serves serves
  | connect stream =>
    simp only [step] at moved
    split at moved
    · rename_i open_
      cases moved
      exact .connected open_.1
    · cases moved
  | receive c =>
    obtain ⟨stream, found, rfl⟩ := receiveStep_cases moved
    exact .received found
  | dispatch c host =>
    obtain ⟨request, handler, found, replies, rfl⟩ := dispatchStep_cases moved
    exact .dispatched found replies
  | wake c ok => exact wakeStep_cases moved
  | write c => exact writeStep_cases moved
  | maintain => exact maintainStep_cases moved
  | takeSocket leaves =>
    cases moved
    exact .socketTaken
  | takePid leaves =>
    cases moved
    exact .pidTaken

end
end ProjgitServer

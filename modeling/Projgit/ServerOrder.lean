import Projgit.ServerUpkeep

/-!
The threads of the daemon serve connections as if one after the other: in the order of their
`dispatch` calls, each connection gets what `handle_connection` would give it alone, from the
state its predecessors have left.
-/
namespace ProjgitServer
open ProjgitRegistry ProjgitProtocol LabelledRuns JsonText Utf8Bytes

/-- The connections that were dispatched, in order, with what each found. -/
def dispatched : List Action → List (ConnId × Host)
  | [] => []
  | .dispatch c host :: rest => (c, host) :: dispatched rest
  | _ :: rest => dispatched rest

def serveAlone (config : Config) (d : DaemonState) (call : Reader × Host) : Bytes × DaemonState :=
  handleConnection config.jsonText config.parse config.setup call.2 call.1 d

def Server.streamOf (s : Server) (c : ConnId) : Reader :=
  ((s.conns[c]?).map Conn.stream).getD ⟨[], none⟩

/-- The calls of a sequential server that is given the connections in this order. -/
def serialCalls (s : Server) (order : List (ConnId × Host)) : List (Reader × Host) :=
  order.map fun call => (s.streamOf call.1, call.2)

def replyBytes (reply : Response) : Bytes := (writeMessage vecWriter responseCodec reply []).2

def Answering (bytes : Bytes) : Handler → Prop
  | .waking reply | .writing reply => replyBytes reply = bytes
  | .closed sent => sent = bytes
  | _ => False

/-- A connection that was not dispatched is where its thread has only read from it. -/
def Unserved (config : Config) (stream : Reader) : Handler → Prop
  | .queued | .dropped | .reading => True
  | .dispatching request => (readMessage config.parse requestCodec stream).1 = .ok request
  | .closed sent => ∀ host d, serveAlone config d (stream, host) = (sent, d)
  | _ => False

structure Serial (config : Config) (order : List (ConnId × Host)) (s : Server) : Prop where
  nodup : (order.map Prod.fst).Nodup
  state : (answers (serveAlone config) .new (serialCalls s order)).2 = s.daemon
  served : ∀ (i : Nat) c host, order[i]? = some (c, host) → ∃ bytes handler,
    (answers (serveAlone config) .new (serialCalls s order)).1[i]? = some bytes ∧
      s.handlerOf c = some handler ∧ Answering bytes handler
  unserved : ∀ c stream handler, c ∉ order.map Prod.fst →
    s.conns[c]? = some ⟨stream, handler⟩ → Unserved config stream handler

theorem dispatched_snoc (acts : List Action) (a : Action) :
    dispatched (acts ++ [a]) = dispatched acts ++ dispatched [a] := by
  induction acts with
  | nil => rfl
  | cons first rest ih =>
    cases first <;> simp [dispatched, ih]

section
variable {config : Config} {s t : Server} {order : List (ConnId × Host)} {c : Nat}
  {handler : Handler} {stream : Reader}

/-- What a malformed or empty stream is answered does not depend on the state. -/
theorem received_unserved : Unserved config stream (received config stream) := by
  unfold received
  split
  · rename_i cut
    intro host d
    simp [serveAlone, handleConnection, cut]
  · rename_i e other bad
    intro host d
    cases e with
    | unexpectedEof => exact absurd rfl other
    | _ => simp [serveAlone, handleConnection, bad]
  · rename_i request accepted
    exact accepted

theorem replies_answering {request : Request} {host : Host} {d : DaemonState}
    (accepted : (readMessage config.parse requestCodec stream).1 = .ok request)
    (replies : Replies config host d request handler) :
    Answering (serveAlone config d (stream, host)).1 handler ∧
      (serveAlone config d (stream, host)).2 =
        (ProjgitRegistry.dispatch config.setup host request d).2 := by
  cases answer : ProjgitRegistry.dispatch config.setup host request d with
  | mk reply after =>
    cases replies with
    | crashed lost =>
      rw [answer] at lost
      cases lost
      simp [serveAlone, handleConnection, accepted, answer, Answering]
    | stopped given =>
      rw [answer] at given
      cases given
      simp [serveAlone, handleConnection, accepted, answer, Answering, replyBytes]
    | answered other given =>
      rw [answer] at given
      cases given
      simp [serveAlone, handleConnection, accepted, answer, Answering, replyBytes]

/-! ### The order of the dispatches -/

theorem conn_of_handler (found : s.handlerOf c = some handler) :
    s.conns[c]? = some ⟨s.streamOf c, handler⟩ := by
  obtain ⟨conn, there, rfl⟩ := Option.map_eq_some_iff.mp found
  simp [Server.streamOf, there]

theorem setHandler_streamOf (c d : Nat) :
    (s.setHandler c handler).streamOf d = s.streamOf d := by
  unfold Server.streamOf
  rw [setHandler_stream]

theorem setHandler_conn {d : Nat} {h : Handler}
    (found : (s.setHandler c handler).conns[d]? = some ⟨stream, h⟩) :
    d = c ∧ h = handler ∨ d ≠ c ∧ s.conns[d]? = some ⟨stream, h⟩ := by
  simp only [Server.setHandler, List.getElem?_modify] at found
  by_cases same : d = c
  · subst same
    simp only [if_true] at found
    obtain ⟨conn, -, made⟩ := Option.map_eq_some_iff.mp found
    cases made
    exact Or.inl ⟨rfl, rfl⟩
  · refine Or.inr ⟨same, ?_⟩
    simpa [Ne.symm same] using found

theorem Serial.keep (serial : Serial config order s) (daemon : t.daemon = s.daemon)
    (streams : ∀ c, (s.handlerOf c).isSome → t.streamOf c = s.streamOf c)
    (served : ∀ c handler bytes, s.handlerOf c = some handler → Answering bytes handler →
      ∃ handler', t.handlerOf c = some handler' ∧ Answering bytes handler')
    (unserved : ∀ c stream handler, c ∉ order.map Prod.fst →
      t.conns[c]? = some ⟨stream, handler⟩ → Unserved config stream handler) :
    Serial config order t := by
  have calls : serialCalls t order = serialCalls s order := by
    refine List.map_congr_left fun call member => ?_
    obtain ⟨i, there⟩ := List.mem_iff_getElem?.mp member
    obtain ⟨bytes, handler, -, found, -⟩ := serial.served i call.1 call.2 there
    rw [streams call.1 (by simp [found])]
  refine ⟨serial.nodup, ?_, fun i c host there => ?_, unserved⟩
  · rw [calls, daemon]
    exact serial.state
  · obtain ⟨bytes, handler, replied, found, answering⟩ := serial.served i c host there
    obtain ⟨handler', found', answering'⟩ := served c handler bytes found answering
    exact ⟨bytes, handler', calls ▸ replied, found', answering'⟩

theorem Serial.setHandler {next : Handler} (serial : Serial config order s)
    (found : s.conns[c]? = some ⟨stream, handler⟩)
    (answers : ∀ bytes, Answering bytes handler → Answering bytes next)
    (unserved : Unserved config stream handler → Unserved config stream next) :
    Serial config order (s.setHandler c next) := by
  refine serial.keep rfl (fun d _ => setHandler_streamOf c d) ?_ ?_
  · intro d other bytes there answering
    rw [setHandler_handlerOf]
    by_cases same : d = c
    · subst same
      have known : s.handlerOf d = some handler := by simp [Server.handlerOf, found]
      cases known.symm.trans there
      exact ⟨next, by simp [there], answers bytes answering⟩
    · exact ⟨other, by rw [if_neg same, there], answering⟩
  · intro d stream' other absent there
    rcases setHandler_conn there with ⟨rfl, same⟩ | ⟨-, before⟩
    · subst same
      have streams : (s.setHandler d other).streamOf d = s.streamOf d := setHandler_streamOf d d
      simp only [Server.streamOf, there, found, Option.map_some, Option.getD_some] at streams
      rw [streams]
      exact unserved (serial.unserved d stream handler absent found)
    · exact serial.unserved d stream' other absent before

theorem Serial.enqueue (serial : Serial config order s) (stream : Reader) :
    Serial config order (s.enqueue stream) := by
  have older : ∀ {d}, (s.handlerOf d).isSome → d ≠ s.conns.length := by
    rintro d known rfl
    simp [Server.handlerOf] at known
  refine serial.keep rfl (fun d known => ?_) (fun d handler bytes found answering => ?_) ?_
  · have inside : d < s.conns.length := by
      by_contra beyond
      simp [Server.handlerOf, List.getElem?_eq_none (Nat.le_of_not_lt beyond)] at known
    simp only [Server.streamOf, Server.enqueue, List.getElem?_append_left inside]
  · refine ⟨handler, ?_, answering⟩
    rw [enqueue_handlerOf, if_neg (older (by simp [found]))]
    exact found
  · intro d stream' handler absent there
    simp only [Server.enqueue, List.getElem?_append] at there
    split at there
    · exact serial.unserved d stream' handler absent there
    · obtain ⟨rfl, rfl⟩ := Conn.mk.inj (List.mem_singleton.mp (List.mem_of_getElem? there))
      exact trivial

theorem Serial.settleWaiting (serial : Serial config order s) (waits : Waits s)
    (held : c ∈ waiting s) (next : Handler) (fresh : ∀ stream, Unserved config stream next) :
    Serial config order (s.setHandler c next) :=
  serial.setHandler (conn_of_handler (waits.queued c held)) (fun _ impossible => impossible.elim)
    fun _ => fresh _

theorem Serial.unlisten (serial : Serial config order s) : Serial config order s.unlisten := by
  refine serial.keep rfl (fun d _ => ?_) (fun d handler bytes found answering => ?_) ?_
  · simp only [Server.streamOf, Server.unlisten, List.getElem?_map]
    cases s.conns[d]? <;> simp [dropQueued_stream]
  · refine ⟨handler, ?_, answering⟩
    rw [unlisten_handlerOf, conn_of_handler found]
    cases handler <;> first | rfl | exact answering.elim
  · intro d stream handler absent there
    simp only [Server.unlisten, List.getElem?_map] at there
    obtain ⟨conn, before, made⟩ := Option.map_eq_some_iff.mp there
    obtain ⟨stream', old⟩ := conn
    have known := serial.unserved d stream' old absent before
    unfold dropQueued at made
    split at made <;> cases made
    · exact trivial
    · exact known

theorem Serial.of_same (serial : Serial config order s) (daemon : t.daemon = s.daemon)
    (conns : t.conns = s.conns) : Serial config order t := by
  have handlers : ∀ c, t.handlerOf c = s.handlerOf c := fun c => by simp [Server.handlerOf, conns]
  refine serial.keep daemon (fun c _ => by simp [Server.streamOf, conns]) ?_ ?_
  · intro c handler bytes found answering
    exact ⟨handler, (handlers c).trans found, answering⟩
  · intro c stream handler absent there
    exact serial.unserved c stream handler absent (conns ▸ there)

theorem Serves.serial {ok : Bool} (moved : Serves config ok s t) (waits : Waits s)
    (serial : Serial config order s) : Serial config order t := by
  cases moved with
  | @left conn at_ flag =>
    cases conn with
    | none => exact serial.of_same rfl rfl
    | some c =>
      have held : c ∈ waiting s := by simp [waiting, at_]
      exact (serial.settleWaiting waits held .dropped fun _ => trivial).of_same rfl rfl
  | @taken c at_ =>
    have held : c ∈ waiting s := by simp [waiting, at_]
    exact (serial.settleWaiting waits held .reading fun _ => trivial).of_same rfl rfl
  | @threadless c at_ =>
    have held : c ∈ waiting s := by simp [waiting, at_]
    exact (serial.settleWaiting waits held .dropped fun _ => trivial).unlisten.of_same rfl rfl
  | unlistened at_ => exact serial.unlisten.of_same rfl rfl
  | _ => exact serial.of_same rfl rfl

theorem SetsUp.serial {ok : Bool} (moved : SetsUp config ok s t)
    (serial : Serial config order s) : Serial config order t := by
  cases moved with
  | unmoded at_ => exact serial.unlisten.of_same rfl rfl
  | abandoned at_ => exact serial.unlisten.of_same rfl rfl
  | threadless at_ => exact serial.unlisten.of_same rfl rfl
  | _ => exact serial.of_same rfl rfl

theorem dispatchStep_serial {host : Host} (moved : dispatchStep config s c host = some t)
    (serial : Serial config order s) : Serial config (order ++ [(c, host)]) t := by
  obtain ⟨request, next, found, replies, rfl⟩ := dispatchStep_cases moved
  obtain ⟨nodup, state, served, unserved⟩ := serial
  have here := conn_of_handler found
  have fresh : c ∉ order.map Prod.fst := by
    intro member
    obtain ⟨call, inside, rfl⟩ := List.mem_map.mp member
    obtain ⟨i, there⟩ := List.mem_iff_getElem?.mp inside
    obtain ⟨bytes, handler, -, known, answering⟩ := served i call.1 call.2 there
    cases found.symm.trans known
    exact answering
  obtain ⟨answering, after⟩ := replies_answering (unserved c _ _ fresh here) replies
  have calls : serialCalls (Server.setHandler
      { s with daemon := (ProjgitRegistry.dispatch config.setup host request s.daemon).2 } c next)
      (order ++ [(c, host)]) = serialCalls s order ++ [(s.streamOf c, host)] := by
    simp only [serialCalls, List.map_append, List.map_singleton, setHandler_streamOf]
    rfl
  have results := answers_snoc (serveAlone config) .new (serialCalls s order) (s.streamOf c, host)
  rw [state] at results
  have length :
      (answers (serveAlone config) .new (serialCalls s order)).1.length = order.length := by
    rw [answers_length, serialCalls, List.length_map]
  refine ⟨?_, ?_, fun i d host' there => ?_, fun d stream handler absent there => ?_⟩
  · rw [List.map_append, List.map_singleton, List.nodup_append]
    refine ⟨nodup, by simp, ?_⟩
    rintro d member e last rfl
    cases List.mem_singleton.mp last
    exact fresh member
  · rw [calls, results]
    exact after
  · rw [calls, results]
    rw [List.getElem?_append] at there
    split at there
    · rename_i inside
      obtain ⟨bytes, handler, replied, known, given⟩ := served i d host' there
      refine ⟨bytes, handler, ?_, ?_, given⟩
      · rw [List.getElem?_append_left (by rw [length]; exact inside)]
        exact replied
      · rw [setHandler_handlerOf, if_neg]
        · exact known
        · rintro rfl
          exact fresh (List.mem_map.mpr ⟨_, List.mem_of_getElem? there, rfl⟩)
    · rename_i beyond
      have last : i - order.length = 0 := by
        by_contra more
        rw [List.getElem?_eq_none (by rw [List.length_singleton]; omega)] at there
        cases there
      rw [last] at there
      cases there
      have exactly : i = order.length := by omega
      refine ⟨_, next, ?_, ?_, answering⟩
      · rw [exactly, List.getElem?_append_right (by rw [length]), length, Nat.sub_self]
        rfl
      · rw [setHandler_handlerOf, if_pos rfl]
        exact congrArg (Option.map fun _ => next) found
  · rw [List.map_append, List.map_singleton, List.mem_append, List.mem_singleton] at absent
    rcases setHandler_conn there with ⟨same, -⟩ | ⟨-, before⟩
    · exact absurd (Or.inr same) absent
    · exact unserved d stream handler (fun member => absent (Or.inl member)) before

theorem step_serial {a : Action} (moved : step config s a = some t) (waits : Waits s)
    (serial : Serial config order s) : Serial config (order ++ dispatched [a]) t := by
  have undispatched : ∀ {t}, Serial config order t → dispatched [a] = [] →
      Serial config (order ++ dispatched [a]) t := by
    intro t kept nothing
    rw [nothing, List.append_nil]
    exact kept
  cases step_cases moved with
  | @dispatched c host request handler found replies => exact dispatchStep_serial moved serial
  | setsUp moved => exact undispatched (moved.serial serial) rfl
  | serves moved => exact undispatched (moved.serial waits serial) rfl
  | connected open_ => exact undispatched (serial.enqueue _) rfl
  | received found =>
    exact undispatched (serial.setHandler found (fun _ impossible => impossible.elim)
      fun _ => received_unserved) rfl
  | woke found open_ =>
    exact undispatched ((serial.enqueue _).setHandler
      (conn_of_handler (enqueue_handlerOf_of_some found)) (fun _ given => given)
      fun impossible => impossible.elim) rfl
  | unheard found deaf =>
    exact undispatched (serial.setHandler (conn_of_handler found) (fun _ given => given)
      fun impossible => impossible.elim) rfl
  | written found =>
    exact undispatched (serial.setHandler (conn_of_handler found) (fun _ given => given)
      fun impossible => impossible.elim) rfl
  | _ => exact undispatched (serial.of_same rfl rfl) rfl

theorem run_serial {staleSocket stalePid : Bool} {acts : List Action}
    (run : exec (step config) (.init staleSocket stalePid) acts = some s) :
    Waits s ∧ Serial config (dispatched acts) s := by
  induction acts using List.reverseRecOn generalizing s with
  | nil =>
    cases Option.some.inj run
    exact ⟨init_waits staleSocket stalePid,
      ⟨List.nodup_nil, rfl, by simp [dispatched], by simp [Server.init]⟩⟩
  | append_singleton acts a ih =>
    obtain ⟨mid, before, moved⟩ := exec_snoc run
    obtain ⟨waits, serial⟩ := ih before
    rw [dispatched_snoc]
    exact ⟨step_waits moved waits, step_serial moved waits serial⟩

/-- In every run: a sequential server that is given the connections in the order of their
    dispatches ends in the same state and sends every connection that is closed the same bytes;
    a connection that was closed without one would get those bytes from any state. -/
theorem server_is_serial {staleSocket stalePid : Bool} {acts : List Action}
    (run : exec (step config) (.init staleSocket stalePid) acts = some s) :
    ((dispatched acts).map Prod.fst).Nodup ∧
    (answers (serveAlone config) .new (serialCalls s (dispatched acts))).2 = s.daemon ∧
    (∀ (i : Nat) c host sent, (dispatched acts)[i]? = some (c, host) →
      s.handlerOf c = some (.closed sent) →
        (answers (serveAlone config) .new (serialCalls s (dispatched acts))).1[i]? = some sent) ∧
    ∀ c sent, c ∉ (dispatched acts).map Prod.fst → s.handlerOf c = some (.closed sent) →
      ∀ host d, serveAlone config d (s.streamOf c, host) = (sent, d) := by
  obtain ⟨-, nodup, state, served, unserved⟩ := run_serial run
  refine ⟨nodup, state, fun i c host sent there closed => ?_, fun c sent absent closed => ?_⟩
  · obtain ⟨bytes, handler, replied, found, answering⟩ := served i c host there
    cases closed.symm.trans found
    rw [replied, show sent = bytes from answering]
  · exact unserved c _ _ absent (conn_of_handler closed)

end

/-- Two clients whose requests are read in one order and dispatched in the other. -/
def crossed : List Action :=
  List.replicate 5 (.main true) ++ [.connect ⟨attachFrame, none⟩, .connect ⟨attachFrame, none⟩,
    .main true, .main true, .main true, .main true, .main true, .main true, .receive 0, .receive 1,
    .dispatch 1 (plainHost (.ok ())), .dispatch 0 (plainHost (.ok ())), .write 0, .write 1]

theorem crossed_runs : (exec (step everySecond) (.init false false) crossed).isSome = true := by
  decide +kernel

theorem crossed_clients_are_served_in_turn :
    ∃ s, exec (step everySecond) (.init false false) crossed = some s ∧
      (dispatched crossed).map Prod.fst = [1, 0] ∧
      (answers (serveAlone everySecond) .new (serialCalls s (dispatched crossed))).2 =
        s.daemon := by
  obtain ⟨s, run⟩ := Option.isSome_iff_exists.mp crossed_runs
  exact ⟨s, run, rfl, (server_is_serial run).2.1⟩

end ProjgitServer

import Projgit.ServerOrder

/-!
`projgit attach` (`main.rs`): one request on a connection of its own, and the one reply printed.
Beside any run of the server the request is acted on at most once, and not at all unless it
arrived whole; what the client is told is what the daemon answered.
-/
namespace ProjgitAttach
open ProjgitProtocol ProjgitRegistry ProjgitServer LabelledRuns JsonText Utf8Bytes

inductive AttachOp where
  | ping | status | shutdown
  | mount (source refName : String) (mountpoint : PathBuf) (noDotgit allowOther : Bool)
  | umount (mountpoint : PathBuf)
  deriving DecidableEq

def AttachOp.request : AttachOp → Request
  | .ping => .ping
  | .status => .status
  | .shutdown => .shutdown
  | .mount source refName mountpoint noDotgit allowOther =>
    .mount source refName mountpoint noDotgit allowOther
  | .umount mountpoint => .umount mountpoint

structure AttachArgs where
  socket : Option PathBuf
  op : AttachOp

/-- The process and its libraries: `XDG_RUNTIME_DIR`, `geteuid`, the parser of `serde_json` and
    the text of its errors. -/
structure Process where
  runtimeDir : Option PathBuf
  uid : UInt32
  parse : Bytes → Option Json
  jsonText : String

/-- The socket and its other end: whether somebody listens, after how many bytes a write fails
    and how, and what there is to read. -/
structure Peer where
  connected : Except String Unit
  room : Option (Nat × String)
  reply : Reader

/-- What `attach` leaves behind: the bytes it sent, the reply it read, the lines it printed. -/
structure Outcome where
  sent : Bytes
  received : Option Response
  out : List String
  err : List String
  result : Attempt Unit

def defaultDaemonSocket (process : Process) : PathBuf :=
  match process.runtimeDir with
  | some rt => ProjgitRegistry.join rt (pathOf "projgitd.sock")
  | none => pathOf ("/tmp/projgitd-" ++ toString process.uid ++ ".sock")

def socketWriter (room : Option (Nat × String)) : Writer Bytes where
  writeAll bytes written :=
    match room with
    | none => (.ok (), written ++ bytes)
    | some (n, e) =>
      if written.length + bytes.length ≤ n then (.ok (), written ++ bytes)
      else (.error (.io e), (written ++ bytes).take n)
  flush written := (.ok (), written)

def mountLine (m : MountInfo) : String :=
  "  [" ++ toString m.projectionId ++ "] " ++ m.refName ++ " -> " ++ displayPath m.mountpoint

def hitsAndMisses (cache : String) (hits misses : UInt64) : String :=
  cache ++ " hits=" ++ toString hits ++ " misses=" ++ toString misses

def cacheLines (c : CacheStats) : List String :=
  [hitsAndMisses "tree cache " c.treeHits c.treeMisses,
    hitsAndMisses "header cache" c.headerHits c.headerMisses,
    hitsAndMisses "blob cache  " c.blobHits c.blobMisses]

def probeLine : HeaderProbeWire → String
  | .present oid => "  present " ++ oid
  | .presentWithHeader oid objectKind size =>
    "  present " ++ oid ++ " (" ++ objectKind ++ ", " ++ toString size ++ "B)"
  | .headerOnly oid objectKind size =>
    "  header-only " ++ oid ++ " (" ++ objectKind ++ ", " ++ toString size ++ "B)"
  | .error oid code message => "  error   " ++ oid ++ " (" ++ code ++ "): " ++ message

def printResponse : Response → List String × List String
  | .pong => (["pong"], [])
  | .ok => (["ok"], [])
  | .status report =>
    (["uptime    : " ++ toString report.uptimeSecs ++ "s",
      "source    : " ++ report.source.getD "(no Mount request yet)",
      "mounts    : " ++ toString report.mounts.length] ++ report.mounts.map mountLine ++
        (report.cache.map cacheLines).getD [], [])
  | .err code message => ([], ["err: " ++ code ++ ": " ++ message])
  | .attached gitDir => (["attached  : " ++ displayPath gitDir], [])
  | .headerProbes probes =>
    (("probes    : " ++ toString probes.length) :: probes.map probeLine, [])

/-- The chain of a frame error: an error that it wraps is in its text and its source too. -/
def frameErrorChain (jsonText : String) (e : FrameError) : String :=
  match e with
  | .io source => frameErrorText jsonText e ++ ": " ++ source
  | .json => frameErrorText jsonText e ++ ": " ++ jsonText
  | _ => frameErrorText jsonText e

def concluded : Response → Attempt Unit
  | .err code _ => .error (.error ("daemon returned error: " ++ code))
  | _ => .ok ()

def cmdAttach (process : Process) (args : AttachArgs) (peer : Peer) : Outcome :=
  let socket := args.socket.getD (defaultDaemonSocket process)
  match withContext ("connecting to projgitd socket at " ++ displayPath socket ++
      " (is the daemon running?)") (peer.connected.mapError .error) with
  | .error e => ⟨[], none, [], [], .error e⟩
  | .ok _ =>
    match writeMessage (socketWriter peer.room) requestCodec args.op.request [] with
    | (.error e, sent) => ⟨sent, none, [], [],
        withContext "write request" (.error (.error (frameErrorChain process.jsonText e)))⟩
    | (.ok _, sent) =>
      match (readMessage process.parse responseCodec peer.reply).1 with
      | .error e => ⟨sent, none, [], [],
          withContext "read response" (.error (.error (frameErrorChain process.jsonText e)))⟩
      | .ok response =>
        let printed := printResponse response
        ⟨sent, some response, printed.1, printed.2, concluded response⟩

/-! ### The front of a frame -/

section
variable {α : Type} {parse : Bytes → Option Json} {codec : Codec α} {msg : α}

def cutError : Option String → FrameError
  | none => .unexpectedEof
  | some e => .io e

theorem readExact_short {n : Nat} {bytes : Bytes} (short : bytes.length < n)
    (fault : Option String) :
    readExactOrEof n ⟨bytes, fault⟩ = (.error (cutError fault), ⟨[], fault⟩) := by
  cases fault <;> simp [readExactOrEof, Nat.not_le.mpr short, cutError]

theorem read_cut {body bytes : Bytes} (fits : body.length ≤ maxMsgLen)
    (front : bytes <+: toBeBytes body.length ++ body)
    (proper : bytes ≠ toBeBytes body.length ++ body) (fault : Option String) :
    (readMessage parse codec ⟨bytes, fault⟩).1 = .error (cutError fault) := by
  have small : body.length < 2 ^ 32 := lt_of_le_of_lt fits (by decide)
  have four : (toBeBytes body.length).length = 4 := rfl
  have shorter : bytes.length < 4 + body.length := by
    rcases Nat.lt_or_ge bytes.length (4 + body.length) with less | more
    · exact less
    · refine absurd (front.eq_of_length_le ?_) proper
      rw [List.length_append, four]
      exact more
  by_cases inHeader : bytes.length < 4
  · simp only [readMessage, readExact_short inHeader]
  · obtain ⟨rest, rfl⟩ : toBeBytes body.length <+: bytes :=
      List.prefix_of_prefix_length_le (List.prefix_append _ _) front (by rw [four]; omega)
    have short : rest.length < body.length := by
      rw [List.length_append, four] at shorter
      omega
    have header : readExactOrEof 4 ⟨toBeBytes body.length ++ rest, fault⟩ = _ :=
      readExactOrEof_append (toBeBytes body.length) rest fault
    simp only [readMessage, header, fromBeBytes_toBeBytes small, if_neg (Nat.not_lt.mpr fits),
      readExact_short short]

def frameOf (codec : Codec α) (msg : α) : Bytes := (writeMessage vecWriter codec msg []).2

/-- The text of a message is parsed to the value it was made of. -/
def Reads (parse : Bytes → Option Json) (codec : Codec α) (msg : α) : Prop :=
  ∀ j, codec.encode msg = some j → parse j.bytes = some j

def RoundTrips (codec : Codec α) : Prop :=
  ∀ msg j, codec.encode msg = some j → codec.decode j = some msg

theorem requestCodec_roundTrips : RoundTrips requestCodec :=
  fun _ _ encoded => decodeRequest_encodeRequest encoded

theorem responseCodec_roundTrips : RoundTrips responseCodec :=
  fun _ _ encoded => decodeResponse_encodeResponse encoded

theorem frame_cases (codec : Codec α) (msg : α) : frameOf codec msg = [] ∨
    ∃ j, codec.encode msg = some j ∧ j.bytes.length ≤ maxMsgLen ∧
      frameOf codec msg = toBeBytes j.bytes.length ++ j.bytes := by
  cases encoded : codec.encode msg with
  | none => exact Or.inl (by simp [frameOf, writeMessage, encoded])
  | some j =>
    rcases Nat.lt_or_ge maxMsgLen j.bytes.length with large | fits
    · exact Or.inl (by simp [frameOf, writeMessage, encoded, large])
    · exact Or.inr ⟨j, rfl, fits, by rw [frameOf, writeMessage_vec encoded fits]⟩

/-- A reader that gets the front of a frame gets all of it, or runs into the end. -/
theorem read_front {bytes : Bytes} (front : bytes <+: frameOf codec msg) (fault : Option String) :
    bytes = frameOf codec msg ∧ frameOf codec msg ≠ [] ∨
      (readMessage parse codec ⟨bytes, fault⟩).1 = .error (cutError fault) := by
  rcases frame_cases codec msg with nothing | ⟨j, -, fits, written⟩
  · rw [nothing, List.prefix_nil] at front
    subst front
    have short : ([] : Bytes).length < 4 := by decide
    exact Or.inr (by simp only [readMessage, readExact_short short])
  · rw [written] at front ⊢
    by_cases whole : bytes = toBeBytes j.bytes.length ++ j.bytes
    · exact Or.inl ⟨whole, by simp [toBeBytes]⟩
    · exact Or.inr (read_cut fits front whole fault)

theorem read_frame (law : RoundTrips codec) (reads : Reads parse codec msg)
    (sent : frameOf codec msg ≠ []) (fault : Option String) :
    (readMessage parse codec ⟨frameOf codec msg, fault⟩).1 = .ok msg := by
  rcases frame_cases codec msg with nothing | ⟨j, encoded, fits, written⟩
  · exact absurd nothing sent
  · have read : (parse j.bytes).bind codec.decode = some msg := by
      rw [reads j encoded, Option.bind_some, law msg j encoded]
    have all := readMessage_whole fits read [] fault
    rw [List.append_nil] at all
    rw [written, all]

theorem read_front_ok {bytes : Bytes} {got : α} {fault : Option String}
    (law : RoundTrips codec) (front : bytes <+: frameOf codec msg)
    (reads : bytes = frameOf codec msg → Reads parse codec msg)
    (read : (readMessage parse codec ⟨bytes, fault⟩).1 = .ok got) :
    got = msg ∧ bytes = frameOf codec msg ∧ frameOf codec msg ≠ [] := by
  have met : bytes = frameOf codec msg ∧ frameOf codec msg ≠ [] ∨
      (readMessage parse codec ⟨bytes, fault⟩).1 = .error (cutError fault) := read_front front fault
  rcases met with ⟨rfl, sent⟩ | cut
  · rw [read_frame law (reads rfl) sent fault] at read
    exact ⟨(Except.ok.inj read).symm, rfl, sent⟩
  · cases cut.symm.trans read

theorem socket_writeAll (room : Option (Nat × String)) (bytes written : Bytes) :
    (∃ e front, (socketWriter room).writeAll bytes written = (.error e, front) ∧
      front <+: written ++ bytes ∧ front.length < (written ++ bytes).length) ∨
    (socketWriter room).writeAll bytes written = (.ok (), written ++ bytes) := by
  unfold socketWriter
  cases room with
  | none => exact Or.inr rfl
  | some limit =>
    by_cases fits : written.length + bytes.length ≤ limit.1
    · exact Or.inr (by simp [fits])
    · refine Or.inl ⟨.io limit.2, (written ++ bytes).take limit.1, if_neg fits,
        List.take_prefix _ _, ?_⟩
      rw [List.length_take, List.length_append]
      omega

/-- A socket takes the whole frame, or less of it and a write has failed. -/
theorem socket_front (room : Option (Nat × String)) (codec : Codec α) (msg : α) :
    (∃ e front, writeMessage (socketWriter room) codec msg [] = (.error e, front) ∧
      front <+: frameOf codec msg ∧ (front = frameOf codec msg → front = [])) ∨
    writeMessage (socketWriter room) codec msg [] = (.ok (), frameOf codec msg) := by
  unfold frameOf writeMessage
  cases codec.encode msg with
  | none => exact Or.inl ⟨_, _, rfl, List.prefix_refl _, fun _ => rfl⟩
  | some j =>
    by_cases large : maxMsgLen < j.bytes.length
    · simp only [if_pos large]
      exact Or.inl ⟨_, _, rfl, List.prefix_refl _, fun _ => rfl⟩
    · simp only [if_neg large, vecWriter, List.nil_append]
      rcases socket_writeAll room (toBeBytes j.bytes.length) [] with
        ⟨e, front, failed, within, less⟩ | done
      · rw [failed]
        refine Or.inl ⟨e, front, rfl, within.trans (List.prefix_append _ _), ?_⟩
        rintro rfl
        simp only [List.nil_append, List.length_append] at less
        omega
      · rw [done]
        simp only [List.nil_append]
        rcases socket_writeAll room j.bytes (toBeBytes j.bytes.length) with
          ⟨e, front, failed, within, less⟩ | done
        · rw [failed]
          refine Or.inl ⟨e, front, rfl, within, ?_⟩
          rintro rfl
          exact absurd less (Nat.lt_irrefl _)
        · rw [done]
          exact Or.inr rfl

end

/-! ### What a step does to one connection -/

inductive Moves (config : Config) (stream : Reader) : Handler → Handler → Prop
  | taken : Moves config stream .queued .reading
  | turnedAway : Moves config stream .queued .dropped
  | received : Moves config stream .reading (received config stream)
  | woken {reply} : Moves config stream (.waking reply) (.writing reply)
  | written {reply} : Moves config stream (.writing reply) (.closed (replyBytes reply))

/-- What a step leaves of the connection `c`: it is new, it was dispatched, or another step of
    its thread was made, or none. -/
inductive Follows (config : Config) (s : Server) (a : Action) (c : Nat) (stream : Reader) :
    Handler → Prop
  | opened (other : ∀ host, a ≠ .dispatch c host) (new : s.conns[c]? = none) :
      Follows config s a c stream .queued
  | dispatched {host request} {next : Handler} (asked : a = .dispatch c host)
      (before : s.conns[c]? = some ⟨stream, .dispatching request⟩) :
      Follows config s a c stream next
  | moved {handler next : Handler} (other : ∀ host, a ≠ .dispatch c host)
      (before : s.conns[c]? = some ⟨stream, handler⟩) (moves : Moves config stream handler next) :
      Follows config s a c stream next
  | kept {handler : Handler} (other : ∀ host, a ≠ .dispatch c host)
      (before : s.conns[c]? = some ⟨stream, handler⟩) : Follows config s a c stream handler

section
variable {config : Config} {s t : Server} {a : Action} {order : List (ConnId × Host)} {c d : Nat}
  {stream : Reader} {handler handler' next : Handler}

theorem setHandler_split (found : s.handlerOf c = some handler)
    (there : (s.setHandler c next).conns[d]? = some ⟨stream, handler'⟩) :
    d = c ∧ handler' = next ∧ s.conns[c]? = some ⟨stream, handler⟩ ∨
      d ≠ c ∧ s.conns[d]? = some ⟨stream, handler'⟩ := by
  rcases setHandler_conn there with ⟨rfl, same⟩ | other
  · refine Or.inl ⟨rfl, same, ?_⟩
    have streams : (s.setHandler d next).streamOf d = s.streamOf d := setHandler_streamOf d d
    rw [conn_of_handler found, ← streams]
    simp [Server.streamOf, there]
  · exact Or.inr other

theorem enqueue_conn {new : Reader} (there : (s.enqueue new).conns[d]? = some ⟨stream, handler⟩) :
    s.conns[d]? = none ∧ handler = .queued ∨ s.conns[d]? = some ⟨stream, handler⟩ := by
  simp only [Server.enqueue, List.getElem?_append] at there
  split at there
  · exact Or.inr there
  · rename_i beyond
    refine Or.inl ⟨List.getElem?_eq_none (Nat.le_of_not_lt beyond), ?_⟩
    obtain ⟨-, same⟩ := Conn.mk.inj (List.mem_singleton.mp (List.mem_of_getElem? there))
    exact same

theorem settled_follows {e : Nat} (other : ∀ host, a ≠ .dispatch c host) (waits : Waits s)
    (held : e ∈ waiting s) (moves : ∀ stream, Moves config stream .queued handler)
    (there : (s.setHandler e handler).conns[c]? = some ⟨stream, next⟩) :
    Follows config s a c stream next := by
  rcases setHandler_split (waits.queued e held) there with ⟨rfl, rfl, before⟩ | ⟨-, before⟩
  · exact .moved other before (moves stream)
  · exact .kept other before

theorem unlisten_conn (there : s.unlisten.conns[c]? = some ⟨stream, next⟩) :
    s.conns[c]? = some ⟨stream, next⟩ ∨ s.conns[c]? = some ⟨stream, .queued⟩ ∧ next = .dropped := by
  simp only [Server.unlisten, List.getElem?_map] at there
  obtain ⟨⟨_, handler⟩, before, made⟩ := Option.map_eq_some_iff.mp there
  unfold dropQueued at made
  split at made <;> cases made
  · rename_i queued
    cases queued
    exact Or.inr ⟨before, rfl⟩
  · exact Or.inl before

theorem unlisten_follows (other : ∀ host, a ≠ .dispatch c host)
    (there : s.unlisten.conns[c]? = some ⟨stream, next⟩) : Follows config s a c stream next := by
  rcases unlisten_conn there with before | ⟨before, rfl⟩
  · exact .kept other before
  · exact .moved other before .turnedAway

theorem SetsUp.follows {ok : Bool} (moved : SetsUp config ok s t)
    (there : t.conns[c]? = some ⟨stream, next⟩) : Follows config s (.main ok) c stream next := by
  have other : ∀ host, Action.main ok ≠ .dispatch c host := by simp
  cases moved with
  | unmoded at_ => exact unlisten_follows other there
  | abandoned at_ => exact unlisten_follows other there
  | threadless at_ => exact unlisten_follows other there
  | _ => exact .kept other there

theorem Serves.follows {ok : Bool} (moved : Serves config ok s t) (waits : Waits s)
    (there : t.conns[c]? = some ⟨stream, next⟩) : Follows config s (.main ok) c stream next := by
  have other : ∀ host, Action.main ok ≠ .dispatch c host := by simp
  cases moved with
  | @left conn at_ flag =>
    cases conn with
    | none => exact .kept other there
    | some e => exact settled_follows other waits (by simp [waiting, at_]) (fun _ => .turnedAway) there
  | taken at_ => exact settled_follows other waits (by simp [waiting, at_]) (fun _ => .taken) there
  | @threadless e at_ =>
    have held : e ∈ waiting s := by simp [waiting, at_]
    rcases unlisten_conn there with before | ⟨before, rfl⟩
    · exact settled_follows other waits held (fun _ => .turnedAway) before
    · rcases setHandler_split (waits.queued e held) before with ⟨-, impossible, -⟩ | ⟨-, before⟩
      · cases impossible
      · exact .moved other before .turnedAway
  | unlistened at_ => exact unlisten_follows other there
  | _ => exact .kept other there

theorem step_follows (moved : step config s a = some t) (waits : Waits s)
    (there : t.conns[c]? = some ⟨stream, next⟩) : Follows config s a c stream next := by
  cases step_cases moved with
  | setsUp moved => exact SetsUp.follows moved there
  | serves moved => exact Serves.follows moved waits there
  | connected open_ =>
    rcases enqueue_conn there with ⟨fresh, rfl⟩ | before
    · exact .opened (by simp) fresh
    · exact .kept (by simp) before
  | @received e read found =>
    have reading : s.handlerOf e = some .reading := by simp [Server.handlerOf, found]
    rcases setHandler_split reading there with ⟨rfl, rfl, before⟩ | ⟨-, before⟩
    · cases found.symm.trans before
      exact .moved (by simp) before .received
    · exact .kept (by simp) before
  | @dispatched e host request handler found replies =>
    rcases setHandler_split found there with ⟨rfl, -, before⟩ | ⟨apart, before⟩
    · exact .dispatched rfl before
    · exact .kept (fun host' same => apart (by cases same; rfl)) before
  | woke found open_ =>
    rcases setHandler_split (enqueue_handlerOf_of_some found) there with
      ⟨rfl, rfl, before⟩ | ⟨-, before⟩
    · rcases enqueue_conn before with ⟨-, impossible⟩ | before
      · cases impossible
      · exact .moved (by simp) before .woken
    · rcases enqueue_conn before with ⟨fresh, rfl⟩ | before
      · exact .opened (by simp) fresh
      · exact .kept (by simp) before
  | unheard found deaf =>
    rcases setHandler_split found there with ⟨rfl, rfl, before⟩ | ⟨-, before⟩
    · exact .moved (by simp) before .woken
    · exact .kept (by simp) before
  | written found =>
    rcases setHandler_split found there with ⟨rfl, rfl, before⟩ | ⟨-, before⟩
    · exact .moved (by simp) before .written
    · exact .kept (by simp) before
  | _ => exact .kept (by simp) there

/-- Before its dispatch a connection is where its thread has only read from it, and it is
    dispatched only once a request was read. -/
structure Stages (config : Config) (order : List (ConnId × Host)) (s : Server) : Prop where
  before : ∀ c stream handler, c ∉ order.map Prod.fst → s.conns[c]? = some ⟨stream, handler⟩ →
    handler = .queued ∨ handler = .dropped ∨ handler = .reading ∨
      handler = received config stream
  after : ∀ c stream handler, c ∈ order.map Prod.fst → s.conns[c]? = some ⟨stream, handler⟩ →
    ∃ request, (readMessage config.parse requestCodec stream).1 = .ok request

theorem unserved_of_received (is : handler = received config stream) :
    Unserved config stream handler := is ▸ received_unserved

theorem mem_order : c ∈ (order ++ dispatched [a]).map Prod.fst ↔
    c ∈ order.map Prod.fst ∨ ∃ host, a = .dispatch c host := by
  rw [List.map_append, List.mem_append]
  cases a <;> simp [dispatched, eq_comm]

theorem step_stages (moved : step config s a = some t) (waits : Waits s)
    (serial : Serial config order s) (stages : Stages config order s) :
    Stages config (order ++ dispatched [a]) t := by
  constructor
  · intro c stream next absent there
    rw [mem_order, not_or] at absent
    obtain ⟨older, undispatched⟩ := absent
    cases step_follows moved waits there with
    | opened => exact Or.inl rfl
    | dispatched asked before => exact absurd ⟨_, asked⟩ undispatched
    | kept other before => exact stages.before c stream next older before
    | moved other before moves =>
      have was := stages.before c stream _ older before
      cases moves with
      | taken => exact Or.inr (Or.inr (Or.inl rfl))
      | turnedAway => exact Or.inr (Or.inl rfl)
      | received => exact Or.inr (Or.inr (Or.inr rfl))
      | woken =>
        rcases was with is | is | is | is
        · cases is
        · cases is
        · cases is
        · exact (unserved_of_received is).elim
      | written =>
        rcases was with is | is | is | is
        · cases is
        · cases is
        · cases is
        · exact (unserved_of_received is).elim
  · intro c stream next member there
    rw [mem_order] at member
    have known : c ∈ order.map Prod.fst → (s.conns[c]?).isSome := by
      intro member
      obtain ⟨call, inside, rfl⟩ := List.mem_map.mp member
      obtain ⟨i, at_⟩ := List.mem_iff_getElem?.mp inside
      obtain ⟨_, _, -, found, -⟩ := serial.served i call.1 call.2 at_
      rw [conn_of_handler found]
      rfl
    have older : (∀ host, a ≠ .dispatch c host) → c ∈ order.map Prod.fst := fun other =>
      member.resolve_right fun ⟨host, asked⟩ => other host asked
    cases step_follows moved waits there with
    | opened other new =>
      have there := known (older other)
      rw [new] at there
      cases there
    | dispatched asked before =>
      by_cases again : c ∈ order.map Prod.fst
      · exact stages.after c stream _ again before
      · rcases stages.before c stream _ again before with is | is | is | is
        · cases is
        · cases is
        · cases is
        · exact ⟨_, unserved_of_received is⟩
    | moved other before => exact stages.after c stream _ (older other) before
    | kept other before => exact stages.after c stream _ (older other) before

theorem run_stages {staleSocket stalePid : Bool} {acts : List Action}
    (run : exec (step config) (.init staleSocket stalePid) acts = some s) :
    Stages config (dispatched acts) s := by
  induction acts using List.reverseRecOn generalizing s with
  | nil =>
    cases Option.some.inj run
    exact ⟨by simp [Server.init], by simp [dispatched]⟩
  | append_singleton acts a ih =>
    obtain ⟨mid, before, moved⟩ := exec_snoc run
    obtain ⟨waits, serial⟩ := run_serial before
    rw [dispatched_snoc]
    exact step_stages moved waits serial (ih before)

/-! ### The client and the server -/

def sentBy : Handler → Bytes
  | .closed sent => sent
  | _ => []

def stateBefore (config : Config) (order : List (ConnId × Host)) (s : Server) (i : Nat) :
    DaemonState :=
  (answers (serveAlone config) .new ((serialCalls s order).take i)).2

inductive Ends (process : Process) (op : AttachOp) (peer : Peer) : Outcome → Prop
  | unconnected (e : Failure) : Ends process op peer ⟨[], none, [], [], .error e⟩
  | unwritten {front} (e : Failure) (within : front <+: frameOf requestCodec op.request)
      (less : front = frameOf requestCodec op.request → front = []) :
      Ends process op peer ⟨front, none, [], [], .error e⟩
  | unread {error} (e : Failure)
      (failed : (readMessage process.parse responseCodec peer.reply).1 = .error error) :
      Ends process op peer ⟨frameOf requestCodec op.request, none, [], [], .error e⟩
  | replied {r} (read : (readMessage process.parse responseCodec peer.reply).1 = .ok r) :
      Ends process op peer ⟨frameOf requestCodec op.request, some r, (printResponse r).1,
        (printResponse r).2, concluded r⟩

theorem cmdAttach_ends (process : Process) (args : AttachArgs) (peer : Peer) :
    Ends process args.op peer (cmdAttach process args peer) := by
  unfold cmdAttach
  cases peer.connected with
  | error e => exact .unconnected _
  | ok _ =>
    simp only [withContext, Except.mapError]
    rcases socket_front peer.room requestCodec args.op.request with
      ⟨e, front, failed, within, less⟩ | sent
    · rw [failed]
      exact .unwritten _ within less
    · rw [sent]
      cases read : (readMessage process.parse responseCodec peer.reply).1 with
      | error e => exact .unread _ read
      | ok r => exact .replied read

section
variable {process : Process} {op : AttachOp} {peer : Peer} {outcome : Outcome} {r : Response}

theorem Ends.sent (ends : Ends process op peer outcome) :
    outcome.sent <+: frameOf requestCodec op.request := by
  cases ends with
  | unconnected e => exact List.nil_prefix
  | unwritten e within less => exact within
  | unread e failed => exact List.prefix_refl _
  | replied read => exact List.prefix_refl _

theorem Ends.received (ends : Ends process op peer outcome) (got : outcome.received = some r) :
    (readMessage process.parse responseCodec peer.reply).1 = .ok r := by
  cases ends with
  | replied read =>
    cases got
    exact read
  | _ => cases got

/-- Once the whole request has gone out, a reply that can be read is read. -/
theorem Ends.receives (ends : Ends process op peer outcome)
    (whole : outcome.sent = frameOf requestCodec op.request)
    (some_ : frameOf requestCodec op.request ≠ [])
    (read : (readMessage process.parse responseCodec peer.reply).1 = .ok r) :
    outcome.received = some r := by
  cases ends with
  | unconnected e => exact absurd whole.symm some_
  | unwritten e within less => exact absurd (whole ▸ less whole) some_
  | unread e failed => cases failed.symm.trans read
  | replied got =>
    cases got.symm.trans read
    rfl

theorem Ends.succeeded (ends : Ends process op peer outcome) (done : outcome.result = .ok ()) :
    ∃ r, outcome.received = some r ∧ ∀ code message, r ≠ .err code message := by
  cases ends with
  | replied read =>
    refine ⟨_, rfl, ?_⟩
    rintro code message rfl
    cases done
  | _ => cases done

end

section
variable {staleSocket stalePid : Bool} {acts : List Action} {process : Process} {request : Request}
  {reply : Reader} {r : Response}

/-- A request that was dispatched had arrived whole. -/
theorem dispatched_whole (run : exec (step config) (.init staleSocket stalePid) acts = some s)
    (asked : Reads config.parse requestCodec request)
    (opened : s.conns[c]? = some ⟨stream, handler⟩)
    (arrives : stream.bytes <+: frameOf requestCodec request)
    (member : c ∈ (dispatched acts).map Prod.fst) :
    stream.bytes = frameOf requestCodec request ∧ frameOf requestCodec request ≠ [] ∧
      (readMessage config.parse requestCodec stream).1 = .ok request := by
  obtain ⟨got, read⟩ := (run_stages run).after c stream handler member opened
  obtain ⟨rfl, whole, some_⟩ := read_front_ok requestCodec_roundTrips arrives (fun _ => asked) read
  exact ⟨whole, some_, read⟩

def answerBytes (config : Config) (request : Request) (host : Host) (d : DaemonState) : Bytes :=
  match (ProjgitRegistry.dispatch config.setup host request d).1 with
  | none => []
  | some reply => frameOf responseCodec reply

theorem serveAlone_read {host : Host} {d : DaemonState}
    (read : (readMessage config.parse requestCodec stream).1 = .ok request) :
    (serveAlone config d (stream, host)).1 = answerBytes config request host d := by
  cases answer : ProjgitRegistry.dispatch config.setup host request d with
  | mk reply after =>
    cases reply <;> simp [serveAlone, handleConnection, answerBytes, read, answer, frameOf]

/-- What was or will be sent to a dispatched request is the answer of the daemon that its
    predecessors have left. -/
theorem dispatched_answer (run : exec (step config) (.init staleSocket stalePid) acts = some s)
    (opened : s.conns[c]? = some ⟨stream, handler⟩)
    (read : (readMessage config.parse requestCodec stream).1 = .ok request)
    {i : Nat} {host : Host} (at_ : (dispatched acts)[i]? = some (c, host)) :
    Answering (answerBytes config request host (stateBefore config (dispatched acts) s i))
      handler := by
  obtain ⟨-, serial⟩ := run_serial run
  obtain ⟨bytes, known, answered, found, answering⟩ := serial.served i c host at_
  have same : s.streamOf c = stream := by simp [Server.streamOf, opened]
  have call : (serialCalls s (dispatched acts))[i]? = some (stream, host) := by
    rw [serialCalls, List.getElem?_map, at_, Option.map_some, same]
  rw [answers_getElem?, call, Option.map_some, serveAlone_read read] at answered
  cases (conn_of_handler found).symm.trans opened
  rw [stateBefore, Option.some.inj answered]
  exact answering

theorem sentBy_answering {bytes : Bytes} (answering : Answering bytes handler) :
    sentBy handler <+: bytes := by
  cases handler with
  | closed sent =>
    cases answering
    exact List.prefix_refl _
  | waking reply => exact List.nil_prefix
  | writing reply => exact List.nil_prefix
  | _ => exact answering.elim

theorem answer_read {host : Host} {d : DaemonState}
    (returns : reply.bytes <+: answerBytes config request host d)
    (understood : ∀ answer, reply.bytes = frameOf responseCodec answer →
      Reads process.parse responseCodec answer)
    (read : (readMessage process.parse responseCodec reply).1 = .ok r) :
    (ProjgitRegistry.dispatch config.setup host request d).1 = some r := by
  unfold answerBytes at returns
  cases answer : (ProjgitRegistry.dispatch config.setup host request d).1 with
  | none =>
    rw [answer] at returns
    have front : reply.bytes <+: frameOf responseCodec r := by
      rw [List.prefix_nil.mp returns]
      exact List.nil_prefix
    obtain ⟨-, whole, some_⟩ := read_front_ok responseCodec_roundTrips front (understood r) read
    exact absurd (whole.symm.trans (List.prefix_nil.mp returns)) some_
  | some given =>
    rw [answer] at returns
    obtain ⟨rfl, -⟩ := read_front_ok responseCodec_roundTrips returns (understood given) read
    rfl

theorem refusal_read (asked : Reads config.parse requestCodec request)
    (stages : Stages config (dispatched acts) s) (opened : s.conns[c]? = some ⟨stream, handler⟩)
    (arrives : stream.bytes <+: frameOf requestCodec request)
    (absent : c ∉ (dispatched acts).map Prod.fst) (returns : reply.bytes <+: sentBy handler)
    (understood : ∀ answer, reply.bytes = frameOf responseCodec answer →
      Reads process.parse responseCodec answer)
    (read : (readMessage process.parse responseCodec reply).1 = .ok r) :
    ∃ e, stream.fault = some e ∧
      r = .err Codes.protocolError (frameErrorText config.jsonText (.io e)) := by
  have silent : sentBy handler ≠ [] := by
    intro none_
    rw [none_] at returns
    have front : reply.bytes <+: frameOf responseCodec r := by
      rw [List.prefix_nil.mp returns]
      exact List.nil_prefix
    obtain ⟨-, whole, some_⟩ := read_front_ok responseCodec_roundTrips front (understood r) read
    exact some_ (whole.symm.trans (List.prefix_nil.mp returns))
  rcases stages.before c stream handler absent opened with rfl | rfl | rfl | rfl
  · exact absurd rfl silent
  · exact absurd rfl silent
  · exact absurd rfl silent
  · obtain ⟨bytes, fault⟩ := stream
    have met : bytes = frameOf requestCodec request ∧ frameOf requestCodec request ≠ [] ∨
        (readMessage config.parse requestCodec ⟨bytes, fault⟩).1 = .error (cutError fault) :=
      read_front arrives fault
    rcases met with ⟨whole, some_⟩ | cut
    · have accepted := read_frame requestCodec_roundTrips asked some_ fault
      rw [← whole] at accepted
      simp [received, accepted, sentBy] at silent
    · cases fault with
      | none => simp [received, cut, cutError, sentBy] at silent
      | some e =>
        refine ⟨e, rfl, ?_⟩
        have sent : sentBy (received config ⟨bytes, some e⟩) = frameOf responseCodec
            (.err Codes.protocolError (frameErrorText config.jsonText (.io e))) := by
          simp only [received, cut, cutError, sentBy, frameOf]
        rw [sent] at returns
        exact (read_front_ok responseCodec_roundTrips returns (understood _) read).1

end

/-- Beside any run of the server, a client whose bytes reach the connection `c` in part or whole
    and who reads in part or whole what is sent there: its request is dispatched at most once,
    and only if all of it arrived; a reply it reads is the answer to that dispatch, in the state
    that the earlier ones have left, or says that the request was lost; it succeeds only after a
    dispatch; and an answer that was sent whole and read whole is what it has. -/
theorem attach_acts_at_most_once {staleSocket stalePid : Bool} {acts : List Action}
    (run : exec (step config) (.init staleSocket stalePid) acts = some s)
    (process : Process) (args : AttachArgs) (peer : Peer)
    (asked : Reads config.parse requestCodec args.op.request)
    (understood : ∀ answer, peer.reply.bytes = frameOf responseCodec answer →
      Reads process.parse responseCodec answer)
    (opened : s.conns[c]? = some ⟨stream, handler⟩)
    (arrives : stream.bytes <+: (cmdAttach process args peer).sent)
    (returns : peer.reply.bytes <+: sentBy handler) :
    ((dispatched acts).map Prod.fst).count c ≤ 1 ∧
    (c ∈ (dispatched acts).map Prod.fst → stream.bytes = frameOf requestCodec args.op.request ∧
      (readMessage config.parse requestCodec stream).1 = .ok args.op.request) ∧
    (∀ r, (cmdAttach process args peer).received = some r →
      (∃ (i : Nat) (host : Host), (dispatched acts)[i]? = some (c, host) ∧
        (ProjgitRegistry.dispatch config.setup host args.op.request
          (stateBefore config (dispatched acts) s i)).1 = some r) ∨
      c ∉ (dispatched acts).map Prod.fst ∧ ∃ e, stream.fault = some e ∧
        r = .err Codes.protocolError (frameErrorText config.jsonText (.io e))) ∧
    ((cmdAttach process args peer).result = .ok () → c ∈ (dispatched acts).map Prod.fst) ∧
    ∀ (i : Nat) (host : Host) r, (dispatched acts)[i]? = some (c, host) →
      (ProjgitRegistry.dispatch config.setup host args.op.request
        (stateBefore config (dispatched acts) s i)).1 = some r →
      frameOf responseCodec r ≠ [] → handler = .closed peer.reply.bytes →
      (cmdAttach process args peer).received = some r := by
  have ends := cmdAttach_ends process args peer
  have front := arrives.trans ends.sent
  have told : ∀ r, (cmdAttach process args peer).received = some r →
      (∃ (i : Nat) (host : Host), (dispatched acts)[i]? = some (c, host) ∧
        (ProjgitRegistry.dispatch config.setup host args.op.request
          (stateBefore config (dispatched acts) s i)).1 = some r) ∨
      c ∉ (dispatched acts).map Prod.fst ∧ ∃ e, stream.fault = some e ∧
        r = .err Codes.protocolError (frameErrorText config.jsonText (.io e)) := by
    intro r got
    have read := ends.received got
    by_cases member : c ∈ (dispatched acts).map Prod.fst
    · obtain ⟨⟨d, host⟩, inside, rfl⟩ := List.mem_map.mp member
      obtain ⟨i, at_⟩ := List.mem_iff_getElem?.mp inside
      obtain ⟨-, -, accepted⟩ := dispatched_whole run asked opened front member
      have answering := dispatched_answer run opened accepted at_
      exact Or.inl ⟨i, host, at_,
        answer_read (returns.trans (sentBy_answering answering)) understood read⟩
    · exact Or.inr ⟨member,
        refusal_read asked (run_stages run) opened front member returns understood read⟩
  refine ⟨?_, fun member => ?_, told, fun done => ?_, fun i host r at_ answer some_ closed => ?_⟩
  · obtain ⟨-, serial⟩ := run_serial run
    exact List.nodup_iff_count_le_one.mp serial.nodup c
  · obtain ⟨whole, -, accepted⟩ := dispatched_whole run asked opened front member
    exact ⟨whole, accepted⟩
  · obtain ⟨r, got, good⟩ := ends.succeeded done
    rcases told r got with ⟨i, host, at_, -⟩ | ⟨-, e, -, refused⟩
    · exact List.mem_map.mpr ⟨_, List.mem_of_getElem? at_, rfl⟩
    · exact absurd refused (good _ _)
  · have member : c ∈ (dispatched acts).map Prod.fst :=
      List.mem_map.mpr ⟨_, List.mem_of_getElem? at_, rfl⟩
    obtain ⟨whole, sent, accepted⟩ := dispatched_whole run asked opened front member
    have answering := dispatched_answer run opened accepted at_
    have out : (cmdAttach process args peer).sent = frameOf requestCodec args.op.request :=
      ends.sent.eq_of_length_le (whole ▸ arrives.length_le)
    refine ends.receives out sent ?_
    subst closed
    have all : peer.reply.bytes = frameOf responseCodec r := by
      change peer.reply.bytes = answerBytes config _ host _ at answering
      rw [answering, answerBytes, answer]
    have read := read_frame responseCodec_roundTrips (understood r all) some_ peer.reply.fault
    rw [← all] at read
    exact read

end

/- `projgit attach shutdown`, on the server that it stops. -/

def okParse (body : Bytes) : Option Json :=
  (encodeResponse .ok).bind fun j => if body = j.bytes then some j else none

def stopClient : Process := ⟨none, 1000, okParse, ""⟩

def stopArgs : AttachArgs := ⟨none, .shutdown⟩

def stopPeer : Peer := ⟨.ok (), none, ⟨frameOf responseCodec .ok, none⟩⟩

theorem stop_asked : Reads smallConfig.parse requestCodec stopArgs.op.request := by
  intro j encoded
  change shutdownParse j.bytes = some j
  rw [shutdownParse, show encodeRequest .shutdown = some j from encoded]
  simp

theorem ok_of_frame {answer : Response}
    (same : frameOf responseCodec .ok = frameOf responseCodec answer) : answer = .ok := by
  have length : (frameOf responseCodec .ok).length = 19 := by decide +kernel
  rcases frame_cases responseCodec answer with nothing | ⟨j, encoded, -, written⟩
  · rw [same, nothing] at length
    cases length
  · have header : ∀ n, (toBeBytes n).length = 4 := fun _ => rfl
    rw [same, written, List.length_append, header, bytes_length, size_encodeResponse encoded]
      at length
    cases answer <;> simp only [replySize, arraySize] at length <;> first | rfl | omega

theorem stop_understood : ∀ answer, stopPeer.reply.bytes = frameOf responseCodec answer →
    Reads stopClient.parse responseCodec answer := by
  intro answer same j encoded
  cases ok_of_frame same
  change okParse j.bytes = some j
  rw [okParse, show encodeResponse .ok = some j from encoded]
  simp

theorem stop_result :
    (exec (step smallConfig) (.init true false) (askToStop ++ wakeAndLeave)).map
      (fun s => (s.conns[0]?).map fun conn => (conn.stream, sentBy conn.handler)) =
        some (some (⟨shutdownFrame, none⟩, frameOf responseCodec .ok)) ∧
    (cmdAttach stopClient stopArgs stopPeer).sent = shutdownFrame ∧
    (cmdAttach stopClient stopArgs stopPeer).received = some .ok := by
  decide +kernel

theorem stop_is_dispatched_once :
    ((dispatched (askToStop ++ wakeAndLeave)).map Prod.fst).count 0 ≤ 1 ∧
    (cmdAttach stopClient stopArgs stopPeer).out = ["ok"] ∧
    ∃ s, exec (step smallConfig) (.init true false) (askToStop ++ wakeAndLeave) = some s ∧
      ∃ (i : Nat) (host : Host), (dispatched (askToStop ++ wakeAndLeave))[i]? = some (0, host) ∧
        (ProjgitRegistry.dispatch smallConfig.setup host .shutdown
          (stateBefore smallConfig (dispatched (askToStop ++ wakeAndLeave)) s i)).1 =
            some .ok := by
  obtain ⟨served, sent, received⟩ := stop_result
  obtain ⟨s, run, opened⟩ := Option.map_eq_some_iff.mp served
  obtain ⟨⟨stream, handler⟩, opened, same⟩ := Option.map_eq_some_iff.mp opened
  obtain ⟨streamed, replied⟩ := Prod.mk.inj same
  have arrives : stream.bytes <+: (cmdAttach stopClient stopArgs stopPeer).sent := by
    rw [sent, show stream = _ from streamed]
  have returns : stopPeer.reply.bytes <+: sentBy handler := by
    rw [show sentBy handler = _ from replied]
    exact List.prefix_refl _
  obtain ⟨once, -, told, -⟩ := attach_acts_at_most_once run stopClient stopArgs stopPeer stop_asked
    stop_understood opened arrives returns
  refine ⟨once, by decide +kernel, s, run, ?_⟩
  rcases told .ok received with answered | ⟨-, _, -, impossible⟩
  · exact answered
  · cases impossible

end ProjgitAttach

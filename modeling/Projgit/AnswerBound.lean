import Projgit.DaemonFetch
import Projgit.Framing
import Projgit.RefusedMount

/-!
Which answers fit into a frame. A request and its answer share one limit, but an answer can be
longer than its request: a probe takes more than the id it answers, and errors carry texts. The
sizes are exact, in bytes of the compact JSON.
-/
namespace ProjgitRegistry
open Utf8Bytes ProjgitStore ProjgitProtocol JsonText LabelledRuns

/-- `Display` of a frame error; `jsonText` is the text of `serde_json`. -/
def frameErrorText (jsonText : String) : FrameError → String
  | .io e => "io: " ++ e
  | .json => "json: " ++ jsonText
  | .tooLarge len =>
    "message too large: " ++ toString len ++ " bytes exceeds MAX_MSG_LEN=" ++ toString maxMsgLen
  | .unexpectedEof => "unexpected EOF reading message frame"

def handleConnection (jsonText : String) (parse : Bytes → Option Json) (setup : Setup)
    (host : Host) (stream : Reader) (s : DaemonState) : Bytes × DaemonState :=
  match (readMessage parse requestCodec stream).1 with
  | .error .unexpectedEof => ([], s)
  | .error e =>
    ((writeMessage vecWriter responseCodec
      (.err Codes.protocolError (frameErrorText jsonText e)) []).2, s)
  | .ok request =>
    match dispatch setup host request s with
    | (none, s) => ([], s)
    | (some response, s) => ((writeMessage vecWriter responseCodec response []).2, s)

def digitCount (n : UInt64) : Nat := (Nat.toDigits 10 n.toNat).length

def probeSize : HeaderProbeWire → Nat
  | .present oid => 27 + textLen oid
  | .presentWithHeader oid objectKind size =>
    64 + textLen oid + textLen objectKind + digitCount size
  | .headerOnly oid objectKind size => 56 + textLen oid + textLen objectKind + digitCount size
  | .error oid code message => 48 + textLen oid + textLen code + textLen message

def pathLen (p : PathBuf) : Nat := textLen ((pathStr p).getD "")

def mountSize (m : MountInfo) : Nat :=
  43 + textLen m.refName + pathLen m.mountpoint + digitCount m.projectionId

def cacheSize (c : CacheStats) : Nat :=
  89 + digitCount c.treeHits + digitCount c.treeMisses + digitCount c.headerHits +
    digitCount c.headerMisses + digitCount c.blobHits + digitCount c.blobMisses

def optionSize {α : Type} (size : α → Nat) : Option α → Nat
  | none => 4
  | some a => size a

def arraySize (sizes : List Nat) : Nat := 2 + sizes.sum + (sizes.length - 1)

def replySize : Response → Nat
  | .pong => 17
  | .ok => 15
  | .status report => 63 + digitCount report.uptimeSecs +
      optionSize (fun source => 2 + textLen source) report.source +
      arraySize (report.mounts.map mountSize) + optionSize cacheSize report.cache
  | .attached gitDir => 34 + pathLen gitDir
  | .headerProbes probes => 36 + arraySize (probes.map probeSize)
  | .err code message => 39 + textLen code + textLen message

theorem key_lengths :
    textLen "kind" = 4 ∧ textLen "oid" = 3 ∧ textLen "object_kind" = 11 ∧ textLen "size" = 4 ∧
    textLen "code" = 4 ∧ textLen "message" = 7 ∧ textLen "present" = 7 ∧
    textLen "present_with_header" = 19 ∧ textLen "header_only" = 11 ∧ textLen "error" = 5 ∧
    textLen "result" = 6 ∧ textLen "pong" = 4 ∧ textLen "ok" = 2 ∧ textLen "status" = 6 ∧
    textLen "attached" = 8 ∧ textLen "header_probes" = 13 ∧ textLen "err" = 3 ∧
    textLen "uptime_secs" = 11 ∧ textLen "source" = 6 ∧ textLen "mounts" = 6 ∧
    textLen "cache" = 5 ∧ textLen "git_dir" = 7 ∧ textLen "probes" = 6 ∧ textLen "ref" = 3 ∧
    textLen "mountpoint" = 10 ∧ textLen "projection_id" = 13 ∧ textLen "tree_hits" = 9 ∧
    textLen "tree_misses" = 11 ∧ textLen "header_hits" = 11 ∧ textLen "header_misses" = 13 ∧
    textLen "blob_hits" = 9 ∧ textLen "blob_misses" = 11 := by
  decide +kernel

@[simp] theorem size_u64 (n : UInt64) : (u64 n).size = digitCount n := size_num n.toNat

theorem size_items {α : Type} (encode : α → Json) (size : α → Nat)
    (same : ∀ a, (encode a).size = size a) (as : List α) :
    (Json.arr (as.map encode)).size = arraySize (as.map size) := by
  have sizes : (as.map encode).map Json.size = as.map size := by
    rw [List.map_map]
    exact List.map_congr_left fun a _ => same a
  rw [size_arr, sizes, arraySize, List.length_map, List.length_map]

theorem size_encodeOption {α : Type} (encode : α → Json) (size : α → Nat)
    (same : ∀ a, (encode a).size = size a) (a : Option α) :
    (encodeOption encode a).size = optionSize size a := by
  cases a with
  | none => exact size_null
  | some a => exact same a

theorem size_encodeProbe (p : HeaderProbeWire) : (encodeProbe p).size = probeSize p := by
  cases p <;>
    simp [encodeProbe, probeSize, key_lengths] <;>
    omega

theorem size_encodeCacheStats (c : CacheStats) : (encodeCacheStats c).size = cacheSize c := by
  simp [encodeCacheStats, cacheSize, key_lengths]
  omega

theorem size_encodePath {p : PathBuf} {j : Json} (encoded : encodePath p = some j) :
    j.size = 2 + pathLen p := by
  obtain ⟨text, read, rfl⟩ := Option.map_eq_some_iff.mp encoded
  rw [size_str, quotedLen_eq, pathLen, read, Option.getD_some]

theorem size_encodeMountInfo {m : MountInfo} {j : Json} (encoded : encodeMountInfo m = some j) :
    j.size = mountSize m := by
  obtain ⟨path, read, made⟩ := Option.bind_eq_some_iff.mp encoded
  cases Option.some.inj made
  simp [mountSize, key_lengths, size_encodePath read]
  omega

theorem size_mounts {mounts : List MountInfo} {js : List Json}
    (encoded : mounts.mapM encodeMountInfo = some js) :
    (Json.arr js).size = arraySize (mounts.map mountSize) := by
  have sizes : js.map Json.size = mounts.map mountSize := by
    induction mounts generalizing js with
    | nil =>
      cases Option.some.inj encoded
      rfl
    | cons m rest ih =>
      rw [List.mapM_cons] at encoded
      obtain ⟨j, first, encoded⟩ := Option.bind_eq_some_iff.mp encoded
      obtain ⟨more, others, encoded⟩ := Option.bind_eq_some_iff.mp encoded
      cases Option.some.inj encoded
      rw [List.map_cons, List.map_cons, ih others, size_encodeMountInfo first]
  have count : js.length = mounts.length := by simpa using congrArg List.length sizes
  rw [size_arr, sizes, arraySize, List.length_map, count]

theorem size_encodeResponse {r : Response} {j : Json} (encoded : encodeResponse r = some j) :
    j.size = replySize r := by
  cases r with
  | pong | ok =>
    cases Option.some.inj encoded
    simp [replySize, key_lengths]
  | status report =>
    obtain ⟨mounts, listed, made⟩ := Option.bind_eq_some_iff.mp encoded
    cases Option.some.inj made
    simp [replySize, key_lengths, size_mounts listed,
      size_encodeOption _ _ size_encodeCacheStats,
      size_encodeOption _ (fun source => 2 + textLen source) size_str]
    omega
  | attached gitDir =>
    obtain ⟨path, read, made⟩ := Option.bind_eq_some_iff.mp encoded
    cases Option.some.inj made
    simp [replySize, key_lengths, size_encodePath read]
    omega
  | headerProbes probes =>
    cases Option.some.inj encoded
    simp [replySize, key_lengths, size_items _ _ size_encodeProbe]
    omega
  | err code message =>
    cases Option.some.inj encoded
    simp [replySize, key_lengths]
    omega

/-- `write_message` takes a reply if its paths are UTF-8 and its size is within the limit. -/
def Framable (r : Response) : Prop :=
  (∀ p ∈ r.paths, (pathStr p).isSome) ∧ replySize r ≤ maxMsgLen

theorem written_of_framable {r : Response} (framable : Framable r) :
    ∃ j, encodeResponse r = some j ∧
      writeMessage vecWriter responseCodec r [] = (.ok (), toBeBytes j.size ++ j.bytes) := by
  obtain ⟨j, encoded⟩ := Option.isSome_iff_exists.mp ((encodeResponse_isSome r).mpr framable.1)
  have fits : j.bytes.length ≤ maxMsgLen := by
    rw [bytes_length, size_encodeResponse encoded]
    exact framable.2
  refine ⟨j, encoded, ?_⟩
  rw [← bytes_length]
  exact writeMessage_vec encoded fits

theorem unwritten_of_not_framable {r : Response} (large : ¬ Framable r) :
    ∃ e, writeMessage vecWriter responseCodec r [] = (.error e, []) := by
  cases encoded : responseCodec.encode r with
  | none => exact ⟨.json, by simp only [writeMessage, encoded]⟩
  | some j =>
    have utf8 : ∀ p ∈ r.paths, (pathStr p).isSome := by
      rw [← encodeResponse_isSome, Option.isSome_iff_exists]
      exact ⟨j, encoded⟩
    have beyond : maxMsgLen < j.bytes.length := by
      rw [bytes_length, size_encodeResponse encoded]
      exact Nat.lt_of_not_le fun fits => large ⟨utf8, fits⟩
    exact ⟨.tooLarge j.bytes.length, by simp only [writeMessage, encoded, if_pos beyond]⟩

/- The condition, on the request, the state it finds and the outcome of its work. -/

def TextFits (code message : String) : Prop := 39 + textLen code + textLen message ≤ maxMsgLen

/-- One probe of an answer. The 40 digits of its id are counted in. -/
def answerSize : HeaderProbe → Nat
  | .present _ => 67
  | .presentWithHeader _ kind size =>
    104 + textLen (ProjgitDaemon.objectKindStr kind) + digitCount (.ofNat size)
  | .headerOnly _ kind size =>
    96 + textLen (ProjgitDaemon.objectKindStr kind) + digitCount (.ofNat size)
  | .error _ e => 100 + textLen e.display

def ProbesFit (probes : List HeaderProbe) : Prop :=
  36 + arraySize (probes.map answerSize) ≤ maxMsgLen

def StatusFits (host : Host) (repo : ActiveRepo) : Prop :=
  (∀ path ∈ repo.mounts.keys, (pathStr path).isSome) ∧
    65 + digitCount host.uptimeSecs + textLen repo.source +
      arraySize ((mountInfos repo.mounts).map mountSize) +
      cacheSize (host.cacheStats repo.gitDir) ≤ maxMsgLen

def SessionFits (host : Host) (repo : ActiveRepo) (refName : String) (path : PathBuf)
    (allowOther : Bool) : Prop :=
  match startSession host repo.gitDir refName path allowOther with
  | .error (.error text) => TextFits Codes.mountFailed text
  | .error .panic => False
  | .ok () => (host.rootTree repo.gitDir refName).isOk → host.spawnOk

def MountFits (host : Host) (repo : ActiveRepo) (source refName : String) (path : PathBuf)
    (noDotgit allowOther : Bool) : Prop :=
  if repo.source ≠ source then
    TextFits Codes.sourceMismatch (mountMismatch source repo.source)
  else if path ∈ repo.mounts then
    TextFits Codes.mountpointBusy (displayPath path ++ " already mounted by this daemon")
  else match buildOverlay host noDotgit refName repo.gitDir with
    | .error (.error text) => TextFits Codes.refResolveFailed text
    | .error .panic => False
    | .ok () => host.rootTree repo.gitDir refName ≠ .error .panic ∧
        SessionFits host repo refName path allowOther

/-- A poisoned lock is answered with a short text, but for `Status`. -/
def Answerable (setup : Setup) (host : Host) (repo : ActiveRepo) (poisoned : Bool) :
    Request → Prop
  | .ping | .shutdown => True
  | .status => poisoned = false ∧ StatusFits host repo
  | .mount source refName mountpoint noDotgit allowOther =>
    match host.canonicalize mountpoint with
    | .error e => TextFits Codes.mountFailed (canonicalizeFailed mountpoint e)
    | .ok path => poisoned = true ∨ MountFits host repo source refName path noDotgit allowOther
  | .umount mountpoint =>
    match host.canonicalize mountpoint with
    | .error e => TextFits Codes.noSuchMount (canonicalizeFailed mountpoint e)
    | .ok path => poisoned = true ∨ path ∈ repo.mounts ∨
        TextFits Codes.noSuchMount ("no mount registered at " ++ displayPath path)
  | .attach source => poisoned = true ∨
      if repo.source ≠ source then
        TextFits Codes.sourceMismatch (attachMismatch source repo.source)
      else (pathStr repo.gitDir).isSome ∧ 34 + pathLen repo.gitDir ≤ maxMsgLen
  | .fetch hex =>
    match parseOid setup hex with
    | .error e => TextFits Codes.badOid e
    | .ok oid => poisoned = true ∨ ∀ e, host.fetchOne oid = .error e → TextFits Codes.fetchFailed e
  | .prefetchHeaders hexes =>
    match hexes.mapM (parseOid setup) with
    | .error e => TextFits Codes.badOid e
    | .ok oids => poisoned = true ∨ ProbesFit (host.prefetchHeaders oids)
  | .fetchMany hexes =>
    match hexes.mapM (parseOid setup) with
    | .error e => TextFits Codes.badOid e
    | .ok oids => poisoned = true ∨ ProbesFit (host.fetchObjects oids)

def Sendable (answer : Answer) : Prop := ∃ r, answer.1 = some r ∧ Framable r

section
variable {setup : Setup} {host : Host} {s : DaemonState} {repo : ActiveRepo}

theorem sendable_some (r : Response) (s : DaemonState) : Sendable (some r, s) ↔ Framable r := by
  simp [Sendable]

theorem not_sendable_panicked (s : DaemonState) : ¬ Sendable s.panicked := by
  simp [Sendable, DaemonState.panicked]

theorem framable_err (code message : String) :
    Framable (.err code message) ↔ TextFits code message := by
  simp [Framable, Response.paths, replySize, TextFits]

theorem sendable_refuse (s : DaemonState) (code message : String) :
    Sendable (s.refuse code message) ↔ TextFits code message := by
  rw [DaemonState.refuse, sendable_some, framable_err]

theorem framable_ok : Framable .ok := by
  refine ⟨nofun, ?_⟩
  decide

theorem poison_fits : TextFits Codes.internal "daemon state mutex poisoned" ∧
    TextFits Codes.internal "daemon state mutex poisoned (prior panic)" := by
  unfold TextFits
  decide +kernel

theorem sendable_locked {text : String} (fits : TextFits Codes.internal text) {answer : Answer}
    {P : Prop} (unlocked : Sendable answer ↔ P) :
    Sendable (if s.poisoned then s.refuse Codes.internal text else answer) ↔
      s.poisoned = true ∨ P := by
  by_cases lock : s.poisoned = true
  · rw [if_pos lock, sendable_refuse]
    exact iff_of_true fits (.inl lock)
  · rw [if_neg lock, unlocked]
    exact (or_iff_right lock).symm

theorem textLen_toHex (oid : ObjectId) : textLen oid.toHex = 40 := by
  have plain : ∀ n < 16, escapeChar (hexDigit n) = [hexDigit n] ∧ (hexDigit n).utf8Size = 1 := by
    decide
  have digits : ∀ bytes : Bytes, byteLen ((bytes.flatMap fun b =>
      [hexDigit (b.toNat / 16), hexDigit (b.toNat % 16)]).flatMap escapeChar) =
        2 * bytes.length := by
    intro bytes
    induction bytes with
    | nil => rfl
    | cons b rest ih =>
      have bound : b.toNat < 256 := b.toNat_lt
      have high := plain (b.toNat / 16) (by omega)
      have low := plain (b.toNat % 16) (by omega)
      simp only [List.flatMap_cons, List.cons_append, List.nil_append, high.1, low.1,
        byteLen_cons, high.2, low.2, ih, List.length_cons]
      omega
  rw [textLen, ObjectId.toHex, String.toList_ofList, digits, oid.width]

theorem probeSize_probeToWire (p : HeaderProbe) : probeSize (probeToWire p) = answerSize p := by
  have code : textLen Codes.fetchFailed = 12 := by decide +kernel
  cases p <;> simp only [probeToWire, probeSize, answerSize, textLen_toHex, code]

theorem framable_probes (probes : List HeaderProbe) :
    Framable (.headerProbes (probes.map probeToWire)) ↔ ProbesFit probes := by
  have sizes : (probes.map probeToWire).map probeSize = probes.map answerSize := by
    rw [List.map_map]
    exact List.map_congr_left fun p _ => probeSize_probeToWire p
  simp [Framable, Response.paths, replySize, sizes, ProbesFit]

theorem arraySize_perm {a b : List Nat} (same : a.Perm b) : arraySize a = arraySize b := by
  rw [arraySize, arraySize, same.sum_nat, same.length_eq]

theorem framable_status (active : s.active = some repo) :
    Framable (.status (status host s)) ↔ StatusFits host repo := by
  have mounts : s.mounts = repo.mounts := by simp [DaemonState.mounts, active]
  have sorted : (status host s).mounts.Perm (mountInfos repo.mounts) := by
    rw [status_mounts, mounts]
    exact List.mergeSort_perm _ _
  have paths : ∀ p, p ∈ (status host s).mounts.map MountInfo.mountpoint ↔ p ∈ repo.mounts.keys := by
    intro p
    rw [(sorted.map _).mem_iff, mountInfos_paths]
  have size : replySize (.status (status host s)) =
      65 + digitCount host.uptimeSecs + textLen repo.source +
        arraySize ((mountInfos repo.mounts).map mountSize) +
        cacheSize (host.cacheStats repo.gitDir) := by
    rw [← arraySize_perm (sorted.map mountSize)]
    simp only [replySize, status, active, optionSize]
    omega
  simp only [Framable, Response.paths, paths, size, StatusFits]

theorem sendable_data {α : Type} (active : s.active = some repo) (parsed : Except String α)
    (work : α → Response) : Sendable (handleData parsed work s) ↔
      match parsed with
      | .error e => TextFits Codes.badOid e
      | .ok ids => s.poisoned = true ∨ Framable (work ids) := by
  cases parsed with
  | error e => exact sendable_refuse s _ _
  | ok ids =>
    refine sendable_locked poison_fits.1 ?_
    simp only [active]
    exact sendable_some _ _

theorem sendable_session (refName : String) (path : PathBuf) (allowOther : Bool) :
    Sendable (finishMount host refName path allowOther repo
      (host.rootTree repo.gitDir refName) s) ↔ SessionFits host repo refName path allowOther := by
  unfold finishMount SessionFits
  cases startSession host repo.gitDir refName path allowOther with
  | error failure =>
    cases failure with
    | error text => exact sendable_refuse _ _ _
    | panic => exact iff_of_false (not_sendable_panicked _) id
  | ok done =>
    simp only [DaemonState.nextProjectionId]
    by_cases spawned : (host.rootTree repo.gitDir refName).isOk → host.spawnOk
    · rw [if_neg (by simpa using spawned)]
      exact iff_of_true ((sendable_some _ _).mpr framable_ok) spawned
    · rw [if_pos (by simpa using spawned)]
      exact iff_of_false (not_sendable_panicked _) spawned

theorem sendable_mountOn (refName : String) (path : PathBuf) (noDotgit allowOther : Bool) :
    Sendable (mountOn host refName path noDotgit allowOther repo s) ↔
      MountFits host repo repo.source refName path noDotgit allowOther := by
  unfold mountOn MountFits
  rw [if_neg (not_not.mpr rfl)]
  split
  · exact sendable_refuse _ _ _
  · cases buildOverlay host noDotgit refName repo.gitDir with
    | error failure =>
      cases failure with
      | error text => exact sendable_refuse _ _ _
      | panic => exact iff_of_false (not_sendable_panicked _) id
    | ok done =>
      by_cases crashed : host.rootTree repo.gitDir refName = .error .panic
      · simp only [crashed]
        exact iff_of_false (not_sendable_panicked _) fun both => both.1 rfl
      · simp only [ne_eq, crashed, not_false_eq_true, true_and]
        exact sendable_session _ _ _

theorem sendable_status (active : s.active = some repo) :
    Sendable (handleStatus host s) ↔ Answerable setup host repo s.poisoned .status := by
  simp only [handleStatus, Answerable]
  cases s.poisoned with
  | true => simpa using not_sendable_panicked s
  | false => simpa [sendable_some] using framable_status active

theorem sendable_mount (active : s.active = some repo) (source refName : String)
    (mountpoint : PathBuf) (noDotgit allowOther : Bool) :
    Sendable (handleMount setup host source refName mountpoint noDotgit allowOther s) ↔
      Answerable setup host repo s.poisoned
        (.mount source refName mountpoint noDotgit allowOther) := by
  simp only [handleMount, Answerable]
  cases host.canonicalize mountpoint with
  | error e => exact sendable_refuse _ _ _
  | ok path =>
    refine sendable_locked poison_fits.2 ?_
    rw [bindFirst_bound active]
    by_cases other : repo.source ≠ source
    · rw [if_pos other, MountFits, if_pos other]
      exact sendable_refuse _ _ _
    · rw [if_neg other]
      cases not_not.mp other
      exact sendable_mountOn _ _ _ _

theorem sendable_umount (active : s.active = some repo) (mountpoint : PathBuf) :
    Sendable (handleUmount host mountpoint s) ↔
      Answerable setup host repo s.poisoned (.umount mountpoint) := by
  simp only [handleUmount, Answerable]
  cases host.canonicalize mountpoint with
  | error e => exact sendable_refuse _ _ _
  | ok path =>
    refine sendable_locked poison_fits.1 ?_
    simp only [active]
    by_cases held : path ∈ repo.mounts
    · rw [if_pos held]
      exact iff_of_true ((sendable_some _ _).mpr framable_ok) (.inl held)
    · rw [if_neg held, sendable_refuse]
      simp [held]

theorem sendable_attach (active : s.active = some repo) (source : String) :
    Sendable (handleAttach setup host source s) ↔
      Answerable setup host repo s.poisoned (.attach source) := by
  simp only [handleAttach, Answerable]
  refine sendable_locked poison_fits.1 ?_
  rw [bindFirst_bound active]
  by_cases other : repo.source ≠ source
  · rw [if_pos other, if_pos other]
    exact sendable_refuse _ _ _
  · rw [if_neg other, if_neg other]
    simp [sendable_some, Framable, Response.paths, replySize]

theorem sendable_iff (active : s.active = some repo) (request : Request) :
    Sendable (dispatch setup host request s) ↔
      Answerable setup host repo s.poisoned request := by
  cases request with
  | ping =>
    refine iff_of_true ((sendable_some _ _).mpr ⟨nofun, ?_⟩) trivial
    decide
  | shutdown => exact iff_of_true ((sendable_some _ _).mpr framable_ok) trivial
  | status => exact sendable_status active
  | mount source refName mountpoint noDotgit allowOther =>
    exact sendable_mount active source refName mountpoint noDotgit allowOther
  | umount mountpoint => exact sendable_umount active mountpoint
  | attach source => exact sendable_attach active source
  | fetch hex =>
    refine (sendable_data active _ _).trans ?_
    simp only [Answerable]
    cases parseOid setup hex with
    | error e => rfl
    | ok oid =>
      refine or_congr_right ?_
      cases host.fetchOne oid with
      | error e => simp [framable_err]
      | ok done => simp [framable_ok]
  | prefetchHeaders hexes =>
    refine (sendable_data active _ _).trans ?_
    simp only [Answerable]
    cases hexes.mapM (parseOid setup) with
    | error e => rfl
    | ok oids => exact or_congr_right (framable_probes _)
  | fetchMany hexes =>
    refine (sendable_data active _ _).trans ?_
    simp only [Answerable]
    cases hexes.mapM (parseOid setup) with
    | error e => rfl
    | ok oids => exact or_congr_right (framable_probes _)

theorem handleConnection_accepted {jsonText : String} {parse : Bytes → Option Json}
    {stream rest : Reader} {request : Request}
    (accepted : readMessage parse requestCodec stream = (.ok request, rest)) (s : DaemonState) :
    handleConnection jsonText parse setup host stream s =
      match dispatch setup host request s with
      | (none, s) => ([], s)
      | (some response, s) => ((writeMessage vecWriter responseCodec response []).2, s) := by
  unfold handleConnection
  rw [accepted]

theorem connection_of_sendable {jsonText : String} {parse : Bytes → Option Json}
    {stream rest : Reader} {request : Request}
    (accepted : readMessage parse requestCodec stream = (.ok request, rest))
    (sendable : Sendable (dispatch setup host request s)) :
    ∃ response frame, (dispatch setup host request s).1 = some response ∧
      writeMessage vecWriter responseCodec response [] = (.ok (), frame) ∧
      (handleConnection jsonText parse setup host stream s).1 = frame := by
  obtain ⟨response, answered, framable⟩ := sendable
  obtain ⟨j, -, written⟩ := written_of_framable framable
  refine ⟨response, _, answered, written, ?_⟩
  rw [handleConnection_accepted accepted,
    show dispatch setup host request s = (some response, (dispatch setup host request s).2) from
      Prod.ext answered rfl]
  exact congrArg Prod.snd written

theorem connection_of_not_sendable {jsonText : String} {parse : Bytes → Option Json}
    {stream rest : Reader} {request : Request}
    (accepted : readMessage parse requestCodec stream = (.ok request, rest))
    (lost : ¬ Sendable (dispatch setup host request s)) :
    (handleConnection jsonText parse setup host stream s).1 = [] := by
  rw [handleConnection_accepted accepted]
  cases answer : dispatch setup host request s with
  | mk reply t =>
    rw [answer] at lost
    cases reply with
    | none => rfl
    | some response =>
      obtain ⟨e, failed⟩ := unwritten_of_not_framable ((sendable_some response t).not.mp lost)
      exact congrArg Prod.snd failed

/-- An accepted request on an attached daemon is answered exactly when its answer fits; if not,
    the connection is closed with nothing on it. -/
theorem accepted_is_answered_iff {jsonText : String} {parse : Bytes → Option Json}
    {stream rest : Reader} {request : Request}
    (accepted : readMessage parse requestCodec stream = (.ok request, rest))
    (active : s.active = some repo) :
    ((∃ response frame, (dispatch setup host request s).1 = some response ∧
        writeMessage vecWriter responseCodec response [] = (.ok (), frame) ∧
        (handleConnection jsonText parse setup host stream s).1 = frame) ↔
      Answerable setup host repo s.poisoned request) ∧
    (¬ Answerable setup host repo s.poisoned request →
      (handleConnection jsonText parse setup host stream s).1 = []) := by
  rw [← sendable_iff active]
  refine ⟨⟨?_, connection_of_sendable accepted⟩, connection_of_not_sendable accepted⟩
  rintro ⟨response, frame, answered, written, -⟩
  by_contra lost
  have large : ¬ Framable response := fun framable => lost ⟨response, answered, framable⟩
  obtain ⟨e, failed⟩ := unwritten_of_not_framable large
  cases (Prod.mk.inj (failed.symm.trans written)).1

end

/- One id that is there, asked for many times over. -/

def idSetup : Setup := { plainSetup with fromHex := ProjgitDaemon.cloneWire.fromHex }

def askTimes (n : Nat) : Request := .prefetchHeaders (List.replicate n firstCommit.toHex)

def askJson (n : Nat) : Json :=
  .obj [("op", .str "prefetch_headers"), ("oids", encodeStrings (List.replicate n firstCommit.toHex))]

/-- A parser that knows the text of the one request. -/
def askParse (n : Nat) (body : Bytes) : Option Json :=
  if body = (askJson n).bytes then some (askJson n) else none

def boundState : DaemonState := { DaemonState.new with active := some plainRepo }

theorem askJson_size (n : Nat) (some : 0 < n) : (askJson n).size = 34 + 43 * n := by
  have keys : textLen "op" = 2 ∧ textLen "prefetch_headers" = 16 ∧ textLen "oids" = 4 := by
    decide +kernel
  have ids : (encodeStrings (List.replicate n firstCommit.toHex)).size = 1 + 43 * n := by
    simp only [encodeStrings, size_arr, List.map_replicate, List.sum_replicate_nat,
      List.length_replicate, size_str, quotedLen_eq, textLen_toHex]
    omega
  simp [askJson, keys, ids]
  omega

theorem parseOids_replicate (n : Nat) :
    (List.replicate n firstCommit.toHex).mapM (parseOid idSetup) =
      .ok (List.replicate n firstCommit) := by
  have one : parseOid idSetup firstCommit.toHex = .ok firstCommit := by
    have read : idSetup.fromHex firstCommit.toHex = .ok firstCommit :=
      ProjgitDaemon.cloneWire_reads firstCommit
    rw [parseOid, read]
    rfl
  induction n with
  | zero => rfl
  | succ n ih =>
    rw [List.replicate_succ, List.mapM_cons, one, ih]
    rfl

theorem ask_answerable (n : Nat) (some : 0 < n) :
    Answerable idSetup (plainHost (.ok ())) plainRepo false (askTimes n) ↔
      37 + 68 * n ≤ maxMsgLen := by
  have size : 36 + arraySize (((plainHost (.ok ())).prefetchHeaders
      (List.replicate n firstCommit)).map answerSize) = 37 + 68 * n := by
    simp only [plainHost, List.map_replicate, answerSize, arraySize, List.sum_replicate_nat,
      List.length_replicate]
    omega
  simp only [Answerable, askTimes, parseOids_replicate, Bool.false_eq_true, false_or, ProbesFit,
    size]

theorem ask_accepted (n : Nat) (some : 0 < n) (fits : 34 + 43 * n ≤ maxMsgLen) :
    ∃ frame, writeMessage vecWriter requestCodec (askTimes n) [] = (.ok (), frame) ∧
      readMessage (askParse n) requestCodec ⟨frame, none⟩ = (.ok (askTimes n), ⟨[], none⟩) := by
  have encoded : requestCodec.encode (askTimes n) = Option.some (askJson n) := rfl
  have small : (askJson n).bytes.length ≤ maxMsgLen := by
    rw [bytes_length, askJson_size n some]
    exact fits
  have text : askParse n (askJson n).bytes = Option.some (askJson n) := if_pos rfl
  obtain ⟨frame, written, framed⟩ :=
    framed encoded (decodeRequest_encodeRequest encoded) small text
  refine ⟨frame, written, ?_⟩
  have whole := framed.whole [] none
  rwa [List.append_nil] at whole

theorem ask_replied (n : Nat) : ∃ response,
    (dispatch idSetup (plainHost (.ok ())) (askTimes n) boundState).1 = some response := by
  simp only [dispatch, askTimes, handlePrefetchHeaders, handleData, parseOids_replicate]
  exact ⟨_, rfl⟩

theorem bound_reached :
    (dispatch idSetup (plainHost (.ok ())) (.attach repoPath) .new).2 = boundState := by
  have notUrl : looksLikeUrl repoPath = false := by decide +kernel
  have opened : attachSource idSetup (plainHost (.ok ())) repoPath = .ok plainRepo := by
    unfold attachSource
    rw [notUrl]
    rfl
  rw [attach_binds rfl rfl opened]
  rfl

/-- 16000 ids make a request of 688034 bytes, and their probes an answer of 1088037. -/
theorem accepted_request_lost :
    ∃ frame, writeMessage vecWriter requestCodec (askTimes 16000) [] = (.ok (), frame) ∧
      readMessage (askParse 16000) requestCodec ⟨frame, none⟩ =
        (.ok (askTimes 16000), ⟨[], none⟩) ∧
      (dispatch idSetup (plainHost (.ok ())) (.attach repoPath) .new).2 = boundState ∧
      boundState.active = some plainRepo ∧
      (∃ response, (dispatch idSetup (plainHost (.ok ())) (askTimes 16000) boundState).1 =
          some response ∧
        ∃ e, writeMessage vecWriter responseCodec response [] = (.error e, [])) ∧
      (handleConnection "" (askParse 16000) idSetup (plainHost (.ok ())) ⟨frame, none⟩
        boundState).1 = [] := by
  obtain ⟨frame, written, accepted⟩ := ask_accepted 16000 (by omega) (by decide)
  have active : boundState.active = some plainRepo := rfl
  have lost : ¬ Sendable (dispatch idSetup (plainHost (.ok ())) (askTimes 16000) boundState) := by
    rw [sendable_iff active]
    exact (ask_answerable 16000 (by omega)).not.mpr (by decide)
  refine ⟨frame, written, accepted, bound_reached, active, ?_, connection_of_not_sendable accepted lost⟩
  obtain ⟨response, answered⟩ := ask_replied 16000
  refine ⟨response, answered, unwritten_of_not_framable fun framable => ?_⟩
  exact lost ⟨response, answered, framable⟩

theorem two_ids_answered :
    ∃ frame, readMessage (askParse 2) requestCodec ⟨frame, none⟩ = (.ok (askTimes 2), ⟨[], none⟩) ∧
      ∃ response reply, (dispatch idSetup (plainHost (.ok ())) (askTimes 2) boundState).1 =
          some response ∧
        writeMessage vecWriter responseCodec response [] = (.ok (), reply) ∧
        (handleConnection "" (askParse 2) idSetup (plainHost (.ok ())) ⟨frame, none⟩
          boundState).1 = reply := by
  obtain ⟨frame, -, accepted⟩ := ask_accepted 2 (by omega) (by decide)
  refine ⟨frame, accepted, ?_⟩
  exact ((accepted_is_answered_iff accepted (show boundState.active = some plainRepo from rfl)).1).mpr
    ((ask_answerable 2 (by omega)).mpr (by decide))

end ProjgitRegistry

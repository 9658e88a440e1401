import Projgit.Lib.Json

/-!
The control protocol of `projgitd` (`protocol.rs`): the nine requests and six responses with
the JSON objects that the derives make of them, and the frames they travel in, a length in
four big-endian bytes and a body. The text layer of `serde_json` writes the compact form of
`JsonText`; its parser is a parameter. Of what it rejects only the fact is kept. A body is
an object: that serde also takes the fields of a struct in an array is left out.
-/
namespace ProjgitProtocol
open Utf8Bytes JsonText

abbrev PathBuf := Bytes

/-- `PathBuf::from` of a string. -/
def pathOf (s : String) : PathBuf := s.toByteArray.data.toList

/-- `Path::to_str`. -/
def pathStr (p : PathBuf) : Option String := String.fromUTF8? ⟨p.toArray⟩

theorem pathStr_pathOf (s : String) : pathStr (pathOf s) = some s := by
  simp [pathStr, pathOf, String.fromUTF8?, String.fromUTF8, s.isValidUTF8]

theorem pathOf_of_pathStr {p : PathBuf} {s : String} (read : pathStr p = some s) :
    pathOf s = p := by
  unfold pathStr String.fromUTF8? at read
  split at read
  · cases read
    simp [pathOf, String.fromUTF8]
  · cases read

def maxMsgLen : Nat := 1024 * 1024

inductive Request where
  | ping
  | status
  | mount (source refName : String) (mountpoint : PathBuf) (noDotgit allowOther : Bool)
  | umount (mountpoint : PathBuf)
  | shutdown
  | attach (source : String)
  | fetch (oid : String)
  | prefetchHeaders (oids : List String)
  | fetchMany (oids : List String)
  deriving DecidableEq

inductive HeaderProbeWire where
  | present (oid : String)
  | presentWithHeader (oid objectKind : String) (size : UInt64)
  | headerOnly (oid objectKind : String) (size : UInt64)
  | error (oid code message : String)
  deriving DecidableEq

structure MountInfo where
  refName : String
  mountpoint : PathBuf
  projectionId : UInt64
  deriving DecidableEq

structure CacheStats where
  treeHits : UInt64
  treeMisses : UInt64
  headerHits : UInt64
  headerMisses : UInt64
  blobHits : UInt64
  blobMisses : UInt64
  deriving DecidableEq

structure StatusReport where
  uptimeSecs : UInt64
  source : Option String
  mounts : List MountInfo
  cache : Option CacheStats
  deriving DecidableEq

inductive Response where
  | pong
  | ok
  | status (report : StatusReport)
  | attached (gitDir : PathBuf)
  | headerProbes (probes : List HeaderProbeWire)
  | err (code message : String)
  deriving DecidableEq

namespace Codes
def mountFailed := "mount_failed"
def mountpointBusy := "mountpoint_busy"
def noSuchMount := "no_such_mount"
def sourceMismatch := "source_mismatch"
def sourceOpenFailed := "source_open_failed"
def refResolveFailed := "ref_resolve_failed"
def protocolError := "protocol_error"
def internal := "internal"
def notAttached := "not_attached"
def badOid := "bad_oid"
def fetchFailed := "fetch_failed"
end Codes

/-- `Serialize` and `Deserialize` of a type. A path that is not UTF-8 has no JSON. -/
structure Codec (α : Type) where
  encode : α → Option Json
  decode : Json → Option α

/- Serialize. -/

def u64 (n : UInt64) : Json := .num n.toNat

def encodePath (p : PathBuf) : Option Json := (pathStr p).map .str

def encodeStrings (ss : List String) : Json := .arr (ss.map .str)

def encodeRequest : Request → Option Json
  | .ping => some (.obj [("op", .str "ping")])
  | .status => some (.obj [("op", .str "status")])
  | .mount source refName mountpoint noDotgit allowOther => do
    let path ← encodePath mountpoint
    return .obj [("op", .str "mount"), ("source", .str source), ("ref", .str refName),
      ("mountpoint", path), ("no_dotgit", .bool noDotgit), ("allow_other", .bool allowOther)]
  | .umount mountpoint => do
    let path ← encodePath mountpoint
    return .obj [("op", .str "umount"), ("mountpoint", path)]
  | .shutdown => some (.obj [("op", .str "shutdown")])
  | .attach source => some (.obj [("op", .str "attach"), ("source", .str source)])
  | .fetch oid => some (.obj [("op", .str "fetch"), ("oid", .str oid)])
  | .prefetchHeaders oids =>
    some (.obj [("op", .str "prefetch_headers"), ("oids", encodeStrings oids)])
  | .fetchMany oids => some (.obj [("op", .str "fetch_many"), ("oids", encodeStrings oids)])

def encodeProbe : HeaderProbeWire → Json
  | .present oid => .obj [("kind", .str "present"), ("oid", .str oid)]
  | .presentWithHeader oid objectKind size => .obj [("kind", .str "present_with_header"),
      ("oid", .str oid), ("object_kind", .str objectKind), ("size", u64 size)]
  | .headerOnly oid objectKind size => .obj [("kind", .str "header_only"),
      ("oid", .str oid), ("object_kind", .str objectKind), ("size", u64 size)]
  | .error oid code message => .obj [("kind", .str "error"),
      ("oid", .str oid), ("code", .str code), ("message", .str message)]

def encodeMountInfo (m : MountInfo) : Option Json := do
  let path ← encodePath m.mountpoint
  return .obj [("ref", .str m.refName), ("mountpoint", path),
    ("projection_id", u64 m.projectionId)]

def encodeCacheStats (c : CacheStats) : Json :=
  .obj [("tree_hits", u64 c.treeHits), ("tree_misses", u64 c.treeMisses),
    ("header_hits", u64 c.headerHits), ("header_misses", u64 c.headerMisses),
    ("blob_hits", u64 c.blobHits), ("blob_misses", u64 c.blobMisses)]

def encodeOption {α : Type} (encode : α → Json) : Option α → Json
  | none => .null
  | some a => encode a

def encodeResponse : Response → Option Json
  | .pong => some (.obj [("result", .str "pong")])
  | .ok => some (.obj [("result", .str "ok")])
  | .status report => do
    let mounts ← report.mounts.mapM encodeMountInfo
    return .obj [("result", .str "status"), ("uptime_secs", u64 report.uptimeSecs),
      ("source", encodeOption .str report.source), ("mounts", .arr mounts),
      ("cache", encodeOption encodeCacheStats report.cache)]
  | .attached gitDir => do
    let path ← encodePath gitDir
    return .obj [("result", .str "attached"), ("git_dir", path)]
  | .headerProbes probes =>
    some (.obj [("result", .str "header_probes"), ("probes", .arr (probes.map encodeProbe))])
  | .err code message =>
    some (.obj [("result", .str "err"), ("code", .str code), ("message", .str message)])

/- Deserialize. -/

def asPath (j : Json) : Option PathBuf := (asStr j).map pathOf

def decodeRequest (j : Json) : Option Request := do
  let fields ← asObject j
  match ← required asStr "op" fields with
  | "ping" => return .ping
  | "status" => return .status
  | "mount" =>
    let source ← required asStr "source" fields
    let refName ← required asStr "ref" fields
    let mountpoint ← required asPath "mountpoint" fields
    let noDotgit ← defaulted asBool false "no_dotgit" fields
    let allowOther ← defaulted asBool false "allow_other" fields
    return .mount source refName mountpoint noDotgit allowOther
  | "umount" => return .umount (← required asPath "mountpoint" fields)
  | "shutdown" => return .shutdown
  | "attach" => return .attach (← required asStr "source" fields)
  | "fetch" => return .fetch (← required asStr "oid" fields)
  | "prefetch_headers" => return .prefetchHeaders (← required (asList asStr) "oids" fields)
  | "fetch_many" => return .fetchMany (← required (asList asStr) "oids" fields)
  | _ => none

def decodeProbe (j : Json) : Option HeaderProbeWire := do
  let fields ← asObject j
  match ← required asStr "kind" fields with
  | "present" => return .present (← required asStr "oid" fields)
  | "present_with_header" =>
    let oid ← required asStr "oid" fields
    let objectKind ← required asStr "object_kind" fields
    return .presentWithHeader oid objectKind (← required asU64 "size" fields)
  | "header_only" =>
    let oid ← required asStr "oid" fields
    let objectKind ← required asStr "object_kind" fields
    return .headerOnly oid objectKind (← required asU64 "size" fields)
  | "error" =>
    let oid ← required asStr "oid" fields
    let code ← required asStr "code" fields
    return .error oid code (← required asStr "message" fields)
  | _ => none

def decodeMountInfo (j : Json) : Option MountInfo := do
  let fields ← asObject j
  let refName ← required asStr "ref" fields
  let mountpoint ← required asPath "mountpoint" fields
  return ⟨refName, mountpoint, ← required asU64 "projection_id" fields⟩

def decodeCacheStats (j : Json) : Option CacheStats := do
  let fields ← asObject j
  let treeHits ← required asU64 "tree_hits" fields
  let treeMisses ← required asU64 "tree_misses" fields
  let headerHits ← required asU64 "header_hits" fields
  let headerMisses ← required asU64 "header_misses" fields
  let blobHits ← required asU64 "blob_hits" fields
  return ⟨treeHits, treeMisses, headerHits, headerMisses, blobHits,
    ← required asU64 "blob_misses" fields⟩

/-- A missing field of an `Option` type is `None`. -/
def decodeStatus (fields : List (String × Json)) : Option StatusReport := do
  let uptimeSecs ← required asU64 "uptime_secs" fields
  let source ← defaulted (asNullable asStr) none "source" fields
  let mounts ← required (asList decodeMountInfo) "mounts" fields
  return ⟨uptimeSecs, source, mounts, ← defaulted (asNullable decodeCacheStats) none "cache" fields⟩

def decodeResponse (j : Json) : Option Response := do
  let fields ← asObject j
  match ← required asStr "result" fields with
  | "pong" => return .pong
  | "ok" => return .ok
  | "status" => return .status (← decodeStatus fields)
  | "attached" => return .attached (← required asPath "git_dir" fields)
  | "header_probes" => return .headerProbes (← required (asList decodeProbe) "probes" fields)
  | "err" =>
    let code ← required asStr "code" fields
    return .err code (← required asStr "message" fields)
  | _ => none

def requestCodec : Codec Request := ⟨encodeRequest, decodeRequest⟩
def responseCodec : Codec Response := ⟨encodeResponse, decodeResponse⟩

/- What is written is read back. -/

theorem asU64_u64 (n : UInt64) : asU64 (u64 n) = some n := by
  have bound : n.toNat < 2 ^ 64 := n.toNat_lt
  simp only [asU64, u64, if_pos bound, UInt64.ofNat_toNat]

theorem asPath_encodePath {p : PathBuf} {j : Json} (encoded : encodePath p = some j) :
    asPath j = some p := by
  obtain ⟨s, read, same⟩ := Option.map_eq_some_iff.mp encoded
  subst same
  simp [asPath, asStr, pathOf_of_pathStr read]

theorem mapM_inverse {α β : Type} {f : α → Option β} {g : β → Option α}
    (inverse : ∀ a b, f a = some b → g b = some a) {as : List α} {bs : List β}
    (mapped : as.mapM f = some bs) : bs.mapM g = some as := by
  induction as generalizing bs with
  | nil =>
    cases mapped
    rfl
  | cons a rest ih =>
    simp only [List.mapM_cons, Option.bind_eq_bind, Option.bind_eq_some_iff, Option.pure_def,
      Option.some.injEq] at mapped
    obtain ⟨b, first, more, others, rfl⟩ := mapped
    simp [inverse a b first, ih others]

theorem mapM_map {α β : Type} (f : α → β) {g : β → Option α} (inverse : ∀ a, g (f a) = some a)
    (as : List α) : (as.map f).mapM g = some as := by
  induction as with
  | nil => rfl
  | cons a rest ih => simp [inverse a, ih]

theorem asList_encodeStrings (ss : List String) : asList asStr (encodeStrings ss) = some ss :=
  mapM_map Json.str (fun _ => rfl) ss

theorem decodeRequest_encodeRequest {m : Request} {j : Json} (encoded : encodeRequest m = some j) :
    decodeRequest j = some m := by
  cases m with
  | mount source refName mountpoint noDotgit allowOther =>
    obtain ⟨path, read, same⟩ := Option.bind_eq_some_iff.mp encoded
    cases same
    change ((asPath path).bind fun p =>
      some (Request.mount source refName p noDotgit allowOther)) = _
    rw [asPath_encodePath read]
    rfl
  | umount mountpoint =>
    obtain ⟨path, read, same⟩ := Option.bind_eq_some_iff.mp encoded
    cases same
    change ((asPath path).bind fun p => some (Request.umount p)) = _
    rw [asPath_encodePath read]
    rfl
  | prefetchHeaders oids =>
    cases encoded
    change ((asList asStr (encodeStrings oids)).bind fun o => some (Request.prefetchHeaders o)) = _
    rw [asList_encodeStrings]
    rfl
  | fetchMany oids =>
    cases encoded
    change ((asList asStr (encodeStrings oids)).bind fun o => some (Request.fetchMany o)) = _
    rw [asList_encodeStrings]
    rfl
  | ping | status | shutdown | attach source | fetch oid =>
    cases encoded
    rfl

theorem decodeProbe_encodeProbe (p : HeaderProbeWire) : decodeProbe (encodeProbe p) = some p := by
  cases p with
  | present oid => rfl
  | error oid code message => rfl
  | presentWithHeader oid objectKind size =>
    change ((asU64 (u64 size)).bind fun n =>
      some (HeaderProbeWire.presentWithHeader oid objectKind n)) = _
    rw [asU64_u64]
    rfl
  | headerOnly oid objectKind size =>
    change ((asU64 (u64 size)).bind fun n =>
      some (HeaderProbeWire.headerOnly oid objectKind n)) = _
    rw [asU64_u64]
    rfl

theorem decodeMountInfo_encodeMountInfo {m : MountInfo} {j : Json}
    (encoded : encodeMountInfo m = some j) : decodeMountInfo j = some m := by
  obtain ⟨path, read, same⟩ := Option.bind_eq_some_iff.mp encoded
  cases same
  change ((asPath path).bind fun p => (asU64 (u64 m.projectionId)).bind fun n =>
    some (MountInfo.mk m.refName p n)) = _
  rw [asPath_encodePath read, asU64_u64]
  rfl

theorem decodeCacheStats_encodeCacheStats (c : CacheStats) :
    decodeCacheStats (encodeCacheStats c) = some c := by
  change ((asU64 (u64 c.treeHits)).bind fun a => (asU64 (u64 c.treeMisses)).bind fun b =>
    (asU64 (u64 c.headerHits)).bind fun d => (asU64 (u64 c.headerMisses)).bind fun e =>
    (asU64 (u64 c.blobHits)).bind fun f => (asU64 (u64 c.blobMisses)).bind fun g =>
    some (CacheStats.mk a b d e f g)) = _
  simp only [asU64_u64, Option.bind_some]

theorem asNullable_encodeOption {α : Type} (encode : α → Json) {decode : Json → Option α}
    (inverse : ∀ a, decode (encode a) = some a) (filled : ∀ a, encode a ≠ .null) (a : Option α) :
    asNullable decode (encodeOption encode a) = some a := by
  cases a with
  | none => rfl
  | some a =>
    have present : asNullable decode (encode a) = (decode (encode a)).map some := by
      cases shape : encode a with
      | null => exact absurd shape (filled a)
      | _ => rfl
    rw [encodeOption, present, inverse a]
    rfl

theorem decodeStatus_encoded {report : StatusReport} {mounts : List Json}
    (encoded : report.mounts.mapM encodeMountInfo = some mounts) :
    decodeStatus [("result", .str "status"), ("uptime_secs", u64 report.uptimeSecs),
      ("source", encodeOption .str report.source), ("mounts", .arr mounts),
      ("cache", encodeOption encodeCacheStats report.cache)] = some report := by
  have listed : asList decodeMountInfo (.arr mounts) = some report.mounts :=
    mapM_inverse (fun _ _ => decodeMountInfo_encodeMountInfo) encoded
  have source : asNullable asStr (encodeOption .str report.source) = some report.source :=
    asNullable_encodeOption Json.str (fun _ => rfl) (fun _ same => nomatch same) _
  have cache : asNullable decodeCacheStats (encodeOption encodeCacheStats report.cache) =
      some report.cache :=
    asNullable_encodeOption encodeCacheStats decodeCacheStats_encodeCacheStats
      (fun _ same => nomatch same) _
  change ((asU64 (u64 report.uptimeSecs)).bind fun secs =>
    (asNullable asStr (encodeOption .str report.source)).bind fun s =>
    (asList decodeMountInfo (.arr mounts)).bind fun ms =>
    (asNullable decodeCacheStats (encodeOption encodeCacheStats report.cache)).bind fun c =>
    some (StatusReport.mk secs s ms c)) = _
  simp only [asU64_u64, source, listed, cache, Option.bind_some]

theorem decodeResponse_encodeResponse {m : Response} {j : Json}
    (encoded : encodeResponse m = some j) : decodeResponse j = some m := by
  cases m with
  | status report =>
    obtain ⟨mounts, read, same⟩ := Option.bind_eq_some_iff.mp encoded
    cases same
    change (decodeStatus _).bind (fun r => some (Response.status r)) = _
    rw [decodeStatus_encoded read]
    rfl
  | attached gitDir =>
    obtain ⟨path, read, same⟩ := Option.bind_eq_some_iff.mp encoded
    cases same
    change ((asPath path).bind fun p => some (Response.attached p)) = _
    rw [asPath_encodePath read]
    rfl
  | headerProbes probes =>
    cases encoded
    have listed : asList decodeProbe (.arr (probes.map encodeProbe)) = some probes :=
      mapM_map encodeProbe decodeProbe_encodeProbe probes
    change (asList decodeProbe (.arr (probes.map encodeProbe))).bind
      (fun ps => some (Response.headerProbes ps)) = _
    rw [listed]
    rfl
  | pong | ok | err code message =>
    cases encoded
    rfl

end ProjgitProtocol

import Projgit.Protocol

/-!
Frames (`protocol.rs`, `write_message` and `read_message`). A message that fits is read back
from its frame with nothing of what follows touched, a frame that is cut short is an
unexpected end, and a length over the limit is refused before the body is looked at.
-/
namespace ProjgitProtocol
open Utf8Bytes JsonText
variable {α σ : Type}

/-- `Json` stands for any error of `serde_json`. -/
inductive FrameError where
  | io (e : String)
  | json
  | tooLarge (len : Nat)
  | unexpectedEof
  deriving DecidableEq

/-- A `Read`: what is still to come, and the error that comes after it, if it is not the end. -/
structure Reader where
  bytes : Bytes
  fault : Option String
  deriving DecidableEq

structure Writer (σ : Type) where
  writeAll : Bytes → σ → Except FrameError Unit × σ
  flush : σ → Except FrameError Unit × σ

def vecWriter : Writer Bytes := ⟨fun bytes written => (.ok (), written ++ bytes), fun w => (.ok (), w)⟩

/-- `u32::to_be_bytes` of a length. -/
def toBeBytes (n : Nat) : Bytes :=
  [.ofNat (n / 2 ^ 24), .ofNat (n / 2 ^ 16), .ofNat (n / 2 ^ 8), .ofNat n]

def fromBeBytes (bytes : Bytes) : Nat := bytes.foldl (fun n b => 256 * n + b.toNat) 0

def writeMessage (writer : Writer σ) (codec : Codec α) (msg : α) (w : σ) :
    Except FrameError Unit × σ :=
  match codec.encode msg with
  | none => (.error .json, w)
  | some j =>
    if maxMsgLen < j.bytes.length then (.error (.tooLarge j.bytes.length), w)
    else match writer.writeAll (toBeBytes j.bytes.length) w with
      | (.error e, w) => (.error e, w)
      | (.ok _, w) =>
        match writer.writeAll j.bytes w with
        | (.error e, w) => (.error e, w)
        | (.ok _, w) => writer.flush w

def readExactOrEof (n : Nat) (reader : Reader) : Except FrameError Bytes × Reader :=
  if n ≤ reader.bytes.length then
    (.ok (reader.bytes.take n), { reader with bytes := reader.bytes.drop n })
  else match reader.fault with
    | none => (.error .unexpectedEof, { reader with bytes := [] })
    | some e => (.error (.io e), { reader with bytes := [] })

def readMessage (parse : Bytes → Option Json) (codec : Codec α) (reader : Reader) :
    Except FrameError α × Reader :=
  match readExactOrEof 4 reader with
  | (.error e, reader) => (.error e, reader)
  | (.ok lenBuf, reader) =>
    if maxMsgLen < fromBeBytes lenBuf then (.error (.tooLarge (fromBeBytes lenBuf)), reader)
    else match readExactOrEof (fromBeBytes lenBuf) reader with
      | (.error e, reader) => (.error e, reader)
      | (.ok body, reader) =>
        match (parse body).bind codec.decode with
        | none => (.error .json, reader)
        | some msg => (.ok msg, reader)

theorem fromBeBytes_toBeBytes {n : Nat} (small : n < 2 ^ 32) : fromBeBytes (toBeBytes n) = n := by
  simp only [fromBeBytes, toBeBytes, List.foldl_cons, List.foldl_nil, UInt8.toNat_ofNat']
  omega

theorem readExactOrEof_append (bytes rest : Bytes) (fault : Option String) :
    readExactOrEof bytes.length ⟨bytes ++ rest, fault⟩ = (.ok bytes, ⟨rest, fault⟩) := by
  simp [readExactOrEof]

theorem readExactOrEof_short {n : Nat} {bytes : Bytes} (short : bytes.length < n) :
    readExactOrEof n ⟨bytes, none⟩ = (.error .unexpectedEof, ⟨[], none⟩) := by
  simp [readExactOrEof, Nat.not_le.mpr short]

section
variable {parse : Bytes → Option Json} {codec : Codec α}

theorem readMessage_tooLarge {n : Nat} (large : maxMsgLen < n) (small : n < 2 ^ 32) (rest : Bytes)
    (fault : Option String) :
    readMessage parse codec ⟨toBeBytes n ++ rest, fault⟩ =
      (.error (.tooLarge n), ⟨rest, fault⟩) := by
  have header : readExactOrEof 4 ⟨toBeBytes n ++ rest, fault⟩ = _ :=
    readExactOrEof_append (toBeBytes n) rest fault
  simp only [readMessage, header, fromBeBytes_toBeBytes small, if_pos large]

theorem readMessage_whole {body : Bytes} {msg : α} (fits : body.length ≤ maxMsgLen)
    (read : (parse body).bind codec.decode = some msg) (rest : Bytes) (fault : Option String) :
    readMessage parse codec ⟨toBeBytes body.length ++ body ++ rest, fault⟩ =
      (.ok msg, ⟨rest, fault⟩) := by
  have small : body.length < 2 ^ 32 := lt_of_le_of_lt fits (by decide)
  have header : readExactOrEof 4 ⟨toBeBytes body.length ++ (body ++ rest), fault⟩ = _ :=
    readExactOrEof_append (toBeBytes body.length) (body ++ rest) fault
  rw [List.append_assoc]
  simp only [readMessage, header, fromBeBytes_toBeBytes small, if_neg (Nat.not_lt.mpr fits),
    readExactOrEof_append, read]

theorem readMessage_cut {body : Bytes} (fits : body.length ≤ maxMsgLen) {k : Nat}
    (proper : k < (toBeBytes body.length ++ body).length) :
    readMessage parse codec ⟨(toBeBytes body.length ++ body).take k, none⟩ =
      (.error .unexpectedEof, ⟨[], none⟩) := by
  have small : body.length < 2 ^ 32 := lt_of_le_of_lt fits (by decide)
  have four : (toBeBytes body.length).length = 4 := rfl
  rw [List.length_append, four] at proper
  by_cases inHeader : k < 4
  · have short : ((toBeBytes body.length ++ body).take k).length < 4 := by
      rw [List.length_take]
      omega
    simp only [readMessage, readExactOrEof_short short]
  · have split : (toBeBytes body.length ++ body).take k =
        toBeBytes body.length ++ body.take (k - 4) := by
      rw [List.take_append, four, List.take_of_length_le (by omega)]
    have header : readExactOrEof 4 ⟨toBeBytes body.length ++ body.take (k - 4), none⟩ = _ :=
      readExactOrEof_append (toBeBytes body.length) (body.take (k - 4)) none
    have short : (body.take (k - 4)).length < body.length := by
      rw [List.length_take]
      omega
    simp only [split, readMessage, header, fromBeBytes_toBeBytes small,
      if_neg (Nat.not_lt.mpr fits), readExactOrEof_short short]

theorem writeMessage_vec {msg : α} {j : Json} (encoded : codec.encode msg = some j)
    (fits : j.bytes.length ≤ maxMsgLen) :
    writeMessage vecWriter codec msg [] = (.ok (), toBeBytes j.bytes.length ++ j.bytes) := by
  simp only [writeMessage, encoded, if_neg (Nat.not_lt.mpr fits), vecWriter, List.nil_append]

end

/-- The paths in a message; JSON has no place for one that is not UTF-8. -/
def Request.paths : Request → List PathBuf
  | .mount _ _ mountpoint _ _ => [mountpoint]
  | .umount mountpoint => [mountpoint]
  | _ => []

def Response.paths : Response → List PathBuf
  | .status report => report.mounts.map MountInfo.mountpoint
  | .attached gitDir => [gitDir]
  | _ => []

theorem encodePath_isSome (p : PathBuf) (f : Json → Json) :
    ((encodePath p).bind fun path => some (f path)).isSome = (pathStr p).isSome := by
  unfold encodePath
  cases pathStr p <;> rfl

theorem encodeRequest_isSome (m : Request) :
    (encodeRequest m).isSome ↔ ∀ p ∈ m.paths, (pathStr p).isSome := by
  cases m with
  | mount source refName mountpoint noDotgit allowOther =>
    simp [encodeRequest, Request.paths, encodePath_isSome]
  | umount mountpoint => simp [encodeRequest, Request.paths, encodePath_isSome]
  | _ => simp [encodeRequest, Request.paths]

theorem mapM_isSome {α β : Type} {f : α → Option β} (as : List α) :
    (as.mapM f).isSome ↔ ∀ a ∈ as, (f a).isSome := by
  induction as with
  | nil => simp
  | cons a rest ih =>
    cases first : f a with
    | none => simp [first]
    | some b =>
      rw [List.mapM_cons, first]
      cases others : rest.mapM f with
      | none =>
        rw [others] at ih
        simpa [first] using ih
      | some more =>
        rw [others] at ih
        simpa [first] using ih

theorem encodeResponse_isSome (m : Response) :
    (encodeResponse m).isSome ↔ ∀ p ∈ m.paths, (pathStr p).isSome := by
  cases m with
  | status report =>
    have listed := mapM_isSome (f := encodeMountInfo) report.mounts
    simp only [encodeResponse, Response.paths, List.forall_mem_map]
    have each : ∀ m : MountInfo, (encodeMountInfo m).isSome = (pathStr m.mountpoint).isSome := by
      intro m
      simp [encodeMountInfo, encodePath_isSome]
    simp only [each] at listed
    rw [← listed]
    cases report.mounts.mapM encodeMountInfo <;> simp
  | attached gitDir => simp [encodeResponse, Response.paths, encodePath_isSome]
  | _ => simp [encodeResponse, Response.paths]

structure Framed (parse : Bytes → Option Json) (codec : Codec α) (msg : α) (frame : Bytes) :
    Prop where
  whole : ∀ rest fault, readMessage parse codec ⟨frame ++ rest, fault⟩ = (.ok msg, ⟨rest, fault⟩)
  cut : ∀ k < frame.length,
    readMessage parse codec ⟨frame.take k, none⟩ = (.error .unexpectedEof, ⟨[], none⟩)

theorem framed {parse : Bytes → Option Json} {codec : Codec α} {msg : α} {j : Json}
    (encoded : codec.encode msg = some j) (decoded : codec.decode j = some msg)
    (fits : j.bytes.length ≤ maxMsgLen) (text : parse j.bytes = some j) :
    ∃ frame, writeMessage vecWriter codec msg [] = (.ok (), frame) ∧
      Framed parse codec msg frame := by
  refine ⟨_, writeMessage_vec encoded fits, ?_, ?_⟩
  · refine readMessage_whole fits ?_
    rw [text, Option.bind_some, decoded]
  · exact fun k proper => readMessage_cut fits proper

/-- A `Mount` body that leaves the two flags out. -/
theorem mount_defaults {fields : List (String × Json)} {source refName mountpoint : String}
    (op : findField "op" fields = some (some (.str "mount")))
    (sourceField : findField "source" fields = some (some (.str source)))
    (refField : findField "ref" fields = some (some (.str refName)))
    (pathField : findField "mountpoint" fields = some (some (.str mountpoint)))
    (noDotgit : "no_dotgit" ∉ fields.map Prod.fst)
    (allowOther : "allow_other" ∉ fields.map Prod.fst) :
    decodeRequest (.obj fields) = some (.mount source refName (pathOf mountpoint) false false) := by
  have absent : ∀ name, name ∉ fields.map Prod.fst → findField name fields = some none := by
    intro name missing
    have none : fields.filter (fun field => field.1 = name) = [] := by
      rw [List.filter_eq_nil_iff]
      intro field member same
      exact missing (List.mem_map.mpr ⟨field, member, by simpa using same⟩)
    rw [findField, none]
  simp [decodeRequest, asObject, required, defaulted, op, sourceField, refField, pathField,
    absent _ noDotgit, absent _ allowOther, asStr, asPath]

/-- Requests and responses survive the wire, whatever follows them; frames cut short and
    lengths over the limit are refused; and the flags of a `Mount` default to `false`. -/
theorem wire_round_trip (parse : Bytes → Option Json) :
    (∀ m : Request, (∀ p ∈ m.paths, (pathStr p).isSome) →
      ∃ j, requestCodec.encode m = some j ∧
        (j.bytes.length ≤ maxMsgLen → parse j.bytes = some j →
          ∃ frame, writeMessage vecWriter requestCodec m [] = (.ok (), frame) ∧
            Framed parse requestCodec m frame)) ∧
    (∀ m : Response, (∀ p ∈ m.paths, (pathStr p).isSome) →
      ∃ j, responseCodec.encode m = some j ∧
        (j.bytes.length ≤ maxMsgLen → parse j.bytes = some j →
          ∃ frame, writeMessage vecWriter responseCodec m [] = (.ok (), frame) ∧
            Framed parse responseCodec m frame)) ∧
    (∀ n rest fault, maxMsgLen < n → n < 2 ^ 32 →
      readMessage parse requestCodec ⟨toBeBytes n ++ rest, fault⟩ =
          (.error (.tooLarge n), ⟨rest, fault⟩) ∧
        readMessage parse responseCodec ⟨toBeBytes n ++ rest, fault⟩ =
          (.error (.tooLarge n), ⟨rest, fault⟩)) ∧
    (∀ fields source refName mountpoint,
      findField "op" fields = some (some (.str "mount")) →
      findField "source" fields = some (some (.str source)) →
      findField "ref" fields = some (some (.str refName)) →
      findField "mountpoint" fields = some (some (.str mountpoint)) →
      "no_dotgit" ∉ fields.map Prod.fst → "allow_other" ∉ fields.map Prod.fst →
      requestCodec.decode (.obj fields) =
        some (.mount source refName (pathOf mountpoint) false false)) := by
  refine ⟨fun m utf8 => ?_, fun m utf8 => ?_, fun n rest fault large small => ?_, ?_⟩
  · obtain ⟨j, encoded⟩ := Option.isSome_iff_exists.mp ((encodeRequest_isSome m).mpr utf8)
    exact ⟨j, encoded, framed encoded (decodeRequest_encodeRequest encoded)⟩
  · obtain ⟨j, encoded⟩ := Option.isSome_iff_exists.mp ((encodeResponse_isSome m).mpr utf8)
    exact ⟨j, encoded, framed encoded (decodeResponse_encodeResponse encoded)⟩
  · exact ⟨readMessage_tooLarge large small rest fault, readMessage_tooLarge large small rest fault⟩
  · intro fields source refName mountpoint op sourceField refField pathField noDotgit allowOther
    exact mount_defaults op sourceField refField pathField noDotgit allowOther

def exampleMount : Request :=
  .mount "https://example/repo" "main" (pathOf "/tmp/mp") true false

def exampleParse (body : Bytes) : Option Json :=
  (encodeRequest exampleMount).bind fun j => if body = j.bytes then some j else none

theorem example_mount_round_trips :
    ∃ frame, writeMessage vecWriter requestCodec exampleMount [] = (.ok (), frame) ∧
      readMessage exampleParse requestCodec ⟨frame ++ [0x7b], none⟩ =
        (.ok exampleMount, ⟨[0x7b], none⟩) := by
  have utf8 : ∀ p ∈ exampleMount.paths, (pathStr p).isSome := by
    intro p member
    cases List.mem_singleton.mp member
    rw [pathStr_pathOf]
    rfl
  obtain ⟨j, encoded, trips⟩ := (wire_round_trip exampleParse).1 exampleMount utf8
  have fits : j.bytes.length ≤ maxMsgLen := by
    have small : ((encodeRequest exampleMount).map fun j => decide (j.bytes.length ≤ maxMsgLen)) =
        some true := by
      decide +kernel
    rw [show encodeRequest exampleMount = some j from encoded] at small
    simpa using small
  have text : exampleParse j.bytes = some j := by
    rw [exampleParse, show encodeRequest exampleMount = some j from encoded]
    simp
  obtain ⟨frame, written, framed⟩ := trips fits text
  exact ⟨frame, written, framed.whole [0x7b] none⟩

end ProjgitProtocol

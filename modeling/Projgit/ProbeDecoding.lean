import Projgit.Lib.HandOut
import Projgit.Daemon
import Projgit.DaemonFetch
import Projgit.RepeatedIds

/-!
The probes of a batch across the daemon's wire: `probe_to_wire` in `server.rs` and
`merge_probes` in the sidecar's `fetcher.rs`. The decoder takes any answer; for distinct ids
it keeps the first probe that decodes under each, and the encoder's own probes come back
but for the class of their errors.
-/
namespace ProjgitDaemon.DaemonFetcher
open ProjgitStore ProjgitGitCli HandOut

/-- One wire probe on its own; `none` for a malformed id or an unknown kind. -/
def decodeProbe (wire : Wire) : HeaderProbeWire → Option HeaderProbe
  | .present oid => (wire.fromHex oid).toOption.map .present
  | .presentWithHeader oid objectKind size =>
    (wire.fromHex oid).toOption.bind fun parsed =>
      (kindNamed objectKind).map fun kind => .presentWithHeader parsed kind size
  | .headerOnly oid objectKind size =>
    (wire.fromHex oid).toOption.bind fun parsed =>
      (kindNamed objectKind).map fun kind => .headerOnly parsed kind size
  | .error oid code message =>
    (wire.fromHex oid).toOption.map fun parsed =>
      .error parsed (daemonErrToFetcher parsed code message)

/-- What an error becomes on its way through the daemon; other probes are unchanged. -/
def carriedOver : HeaderProbe → HeaderProbe
  | .error oid e => .error oid (.backend oid ("daemon fetch_failed: " ++ e.display))
  | probe => probe

variable {wire : Wire}

theorem mergeOne_decodes (found : Probes) (probe : HeaderProbeWire) :
    mergeOne wire found probe =
      (decodeProbe wire probe).elim found fun p => orInsert found p.oid p := by
  cases probe with
  | present oid =>
    simp only [mergeOne, decodeProbe]
    cases wire.fromHex oid <;> rfl
  | presentWithHeader oid objectKind size =>
    simp only [mergeOne, decodeProbe]
    cases wire.fromHex oid <;> cases kindNamed objectKind <;> rfl
  | headerOnly oid objectKind size =>
    simp only [mergeOne, decodeProbe]
    cases wire.fromHex oid <;> cases kindNamed objectKind <;> rfl
  | error oid code message =>
    simp only [mergeOne, decodeProbe]
    cases wire.fromHex oid <;> rfl

theorem merge_keeps_first (probes : List HeaderProbeWire) (found : Probes) :
    probes.foldl (mergeOne wire) found =
      keepFirst HeaderProbe.oid (probes.filterMap (decodeProbe wire)) found := by
  induction probes generalizing found with
  | nil => rfl
  | cons probe rest ih =>
    rw [List.foldl_cons, ih, mergeOne_decodes]
    cases decoded : decodeProbe wire probe with
    | none => rw [List.filterMap_cons_none decoded, Option.elim_none]
    | some p =>
      rw [List.filterMap_cons_some decoded, Option.elim_some]
      rfl

theorem mergeProbes_first {oids : List ObjectId} (distinct : oids.Nodup)
    (probes : List HeaderProbeWire) :
    mergeProbes wire oids probes = oids.map fun oid =>
      ((probes.filterMap (decodeProbe wire)).find? fun p => p.oid = oid).getD
        (.error oid (.backend oid "daemon omitted probe for this OID")) := by
  rw [mergeProbes, takeProbes_eq, handOut_nodup distinct, merge_keeps_first]
  refine List.map_congr_left fun oid _ => ?_
  rw [lookup_keepFirst, AList.lookup_empty, Option.none_or]

theorem decode_encoded (reads : ∀ oid, wire.fromHex oid.toHex = .ok oid) (p : HeaderProbe) :
    decodeProbe wire (probeToWire p) = some (carriedOver p) := by
  have named : ∀ kind, kindNamed (objectKindStr kind) = some kind := by
    intro kind
    cases kind <;> rfl
  cases p with
  | present oid => simp [decodeProbe, probeToWire, reads, carriedOver, Except.toOption]
  | presentWithHeader oid kind size =>
    simp [decodeProbe, probeToWire, reads, named, carriedOver, Except.toOption]
  | headerOnly oid kind size =>
    simp [decodeProbe, probeToWire, reads, named, carriedOver, Except.toOption]
  | error oid e =>
    have code : daemonErrToFetcher oid Codes.fetchFailed e.display =
        .backend oid ("daemon fetch_failed: " ++ e.display) := rfl
    simp [decodeProbe, probeToWire, reads, code, carriedOver, Except.toOption]

theorem carriedOver_oid (p : HeaderProbe) : (carriedOver p).oid = p.oid := by
  cases p <;> rfl

theorem find_named {ps : List HeaderProbe} (distinct : (ps.map HeaderProbe.oid).Nodup)
    {p : HeaderProbe} (member : p ∈ ps) : (ps.find? fun q => q.oid = p.oid) = some p := by
  cases search : ps.find? fun q => q.oid = p.oid with
  | none =>
    have missed := List.find?_eq_none.mp search p member
    exact absurd (decide_eq_true rfl) missed
  | some q =>
    have named : q.oid = p.oid := by simpa using List.find?_some search
    have found := List.mem_of_find?_eq_some search
    rw [List.inj_on_of_nodup_map distinct found member named]

theorem roundtrip (reads : ∀ oid, wire.fromHex oid.toHex = .ok oid) {oids : List ObjectId}
    (distinct : oids.Nodup) {ps qs : List HeaderProbe} (named : ps.map HeaderProbe.oid = oids)
    (reordered : qs.Perm ps) :
    mergeProbes wire oids (qs.map probeToWire) = ps.map carriedOver := by
  have decoded : (qs.map probeToWire).filterMap (decodeProbe wire) = qs.map carriedOver := by
    rw [List.filterMap_map, ← List.filterMap_eq_map]
    exact List.filterMap_congr fun p _ => decode_encoded reads p
  have ids : (qs.map carriedOver).map HeaderProbe.oid = qs.map HeaderProbe.oid := by
    rw [List.map_map]
    exact List.map_congr_left fun p _ => carriedOver_oid p
  have once : ((qs.map carriedOver).map HeaderProbe.oid).Nodup := by
    rw [ids, (reordered.map HeaderProbe.oid).nodup_iff, named]
    exact distinct
  rw [mergeProbes_first distinct, decoded, ← named, List.map_map]
  refine List.map_congr_left fun p member => ?_
  have kept : carriedOver p ∈ qs.map carriedOver :=
    List.mem_map_of_mem (reordered.mem_iff.mpr member)
  have found := find_named once kept
  rw [carriedOver_oid] at found
  rw [Function.comp_apply, found, Option.getD_some]

/-- For distinct ids: one probe per id in request order, the first that decodes under it or
    an error; and probes that the daemon encodes for these ids, in any order, come back. -/
theorem probes_decoded (wire : Wire) (reads : ∀ oid, wire.fromHex oid.toHex = .ok oid)
    (oids : List ObjectId) (distinct : oids.Nodup) :
    (∀ probes : List HeaderProbeWire,
      (mergeProbes wire oids probes).map HeaderProbe.oid = oids ∧
      mergeProbes wire oids probes = oids.map fun oid =>
        ((probes.filterMap (decodeProbe wire)).find? fun p => p.oid = oid).getD
          (.error oid (.backend oid "daemon omitted probe for this OID"))) ∧
    ∀ ps qs : List HeaderProbe, ps.map HeaderProbe.oid = oids → qs.Perm ps →
      mergeProbes wire oids (qs.map probeToWire) = ps.map carriedOver := by
  refine ⟨fun probes => ⟨?_, mergeProbes_first distinct probes⟩, ?_⟩
  · have reassembled : Reassembles oids (mergeProbes wire oids probes) :=
      mergeProbes_reassembles oids probes
    obtain ⟨missing, found, filed, same⟩ := reassembled
    rw [same]
    exact handOut_named filed (fun _ => rfl) oids
  · intro ps qs named reordered
    exact roundtrip reads distinct named reordered

def sampleIds : List ObjectId := [fixtureId 1, fixtureId 2, fixtureId 3, fixtureId 4]

/-- Out of order: an error, a malformed id, an unknown kind, a foreign id, one id twice, and
    nothing for the third. -/
def sampleAnswer : List HeaderProbeWire :=
  [.error (fixtureId 4).toHex Codes.fetchFailed "no remote", .present "zz",
    .presentWithHeader (fixtureId 2).toHex "note" 5, .headerOnly (fixtureId 2).toHex "tree" 7,
    .present (fixtureId 9).toHex, .present (fixtureId 1).toHex,
    .presentWithHeader (fixtureId 1).toHex "blob" 3]

def sampleProbes : List HeaderProbe :=
  [.present (fixtureId 1), .presentWithHeader (fixtureId 2) .tree 7, .headerOnly (fixtureId 3) .tag 0,
    .error (fixtureId 4) (.transport (fixtureId 4) "reset by peer")]

theorem probes_decoded_clone :
    (∀ oid, cloneWire.fromHex oid.toHex = .ok oid) ∧ sampleIds.Nodup ∧
      mergeProbes cloneWire sampleIds sampleAnswer =
        [.present (fixtureId 1), .headerOnly (fixtureId 2) .tree 7,
          .error (fixtureId 3) (.backend (fixtureId 3) "daemon omitted probe for this OID"),
          .error (fixtureId 4) (.backend (fixtureId 4) "daemon fetch_failed: no remote")] ∧
      mergeProbes cloneWire sampleIds (sampleProbes.reverse.map probeToWire) =
        sampleProbes.map carriedOver := by
  have distinct : sampleIds.Nodup := by decide
  obtain ⟨decoded, carried⟩ := probes_decoded cloneWire cloneWire_reads sampleIds distinct
  refine ⟨cloneWire_reads, distinct, ?_, carried sampleProbes _ rfl (List.reverse_perm _)⟩
  rw [(decoded sampleAnswer).2]
  decide +kernel

end ProjgitDaemon.DaemonFetcher

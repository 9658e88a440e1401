import Projgit.Hydration
import Projgit.Lib.HandOut

/-!
The batch calls of `HydratingObjectStore` (`fetcher.rs`), against any fetcher that answers
one probe per id. The answers go through a map that forgets each probe once it is handed
out, and an id without a probe counts as present; so a repeated id keeps its outcome only
if that was a success.
-/
namespace ProjgitStore
open Utf8Bytes ProjgitCaches Stateful HandOut
variable {ω : Type}

def HeaderProbe.isError : HeaderProbe → Bool
  | .error _ _ => true
  | _ => false

def HeaderProbe.saysResident : HeaderProbe → Bool
  | .present _ | .presentWithHeader _ _ _ => true
  | _ => false

def Gix.Resident (G : Gix ω) (w : ω) (oid : ObjectId) : Prop :=
  ∃ obj, G.tryFindObject w oid = .ok (some obj)

def Gix.HeaderKnown (G : Gix ω) (s : Store ω) (oid : ObjectId) : Prop :=
  (s.headerCache.entries.lookup oid).isSome ∨ ∃ h, G.tryFindHeader s.world oid = .ok (some h)

/-- One probe per queried id, in order; what is reported resident is so, and nothing leaves
    the disk. -/
structure Fetcher.Reliable (F : Fetcher (StateM (Store ω))) (G : Gix ω) : Prop where
  objects : ∀ oids s, Gives (F.fetchObjects oids) s fun probes t =>
    probes.map HeaderProbe.oid = oids ∧
      (∀ p ∈ probes, p.saysResident → G.Resident t.world p.oid) ∧
      ∀ oid, G.Resident s.world oid → G.Resident t.world oid
  headers : ∀ oids s, Gives (F.prefetchHeaders oids) s fun probes _ =>
    probes.map HeaderProbe.oid = oids

namespace HydratingObjectStore
variable (H : HydratingObjectStore (StateM (Store ω)))

section
variable (absent : ObjectId → StateM (Store ω) Bool)
  (ask : List ObjectId → StateM (Store ω) (List HeaderProbe))

def asked (oids : List ObjectId) (s : Store ω) : List ObjectId × Store ω :=
  (pending absent oids).run s

/-- What the fetcher replied in a batch call; nothing if it was not called. -/
def replied (oids : List ObjectId) (s : Store ω) : List HeaderProbe × Store ω :=
  if (asked absent oids s).1.isEmpty then ([], (asked absent oids s).2)
  else (ask (asked absent oids s).1).run (asked absent oids s).2

end

theorem reassemble_eq (found : AList (fun _ : ObjectId => HeaderProbe)) (oids : List ObjectId) :
    reassemble found oids = handOut HeaderProbe.present oids found := by
  induction oids generalizing found with
  | nil => rfl
  | cons oid rest ih => simp [reassemble, handOut, ih]

theorem gives_batch (absent : ObjectId → StateM (Store ω) Bool)
    (ask : List ObjectId → StateM (Store ω) (List HeaderProbe)) (oids : List ObjectId)
    (s : Store ω) (post : List HeaderProbe → Store ω → Prop) :
    Gives (H.batch absent ask oids) s post ↔
      Gives (H.publishProbes (replied absent ask oids s).1) (replied absent ask oids s).2
        fun _ t => post (handOut .present oids
          (collect HeaderProbe.oid (replied absent ask oids s).1)) t := by
  unfold batch
  rw [gives_bind]
  change Gives (if (asked absent oids s).1.isEmpty then _ else _) (asked absent oids s).2 post ↔ _
  by_cases none : (asked absent oids s).1.isEmpty
  · have silent : replied absent ask oids s = ([], (asked absent oids s).2) := if_pos none
    simp only [none, if_true, silent, gives_pure, publishProbes, collect, List.foldl_nil,
      handOut_empty]
  · have called : replied absent ask oids s =
        (ask (asked absent oids s).1).run (asked absent oids s).2 := if_neg none
    simp only [none, Bool.false_eq_true, if_false, called, gives_bind, gives_pure, reassemble_eq]
    rfl

end HydratingObjectStore

section
variable {G : Gix ω} {F : Fetcher (StateM (Store ω))} {s t : Store ω} {oids : List ObjectId}

/-- Only caches have changed, and they hold no header that was not known. -/
structure Near (G : Gix ω) (s t : Store ω) : Prop where
  world : t.world = s.world
  headers : Cached t.headerCache.entries fun oid _ => G.HeaderKnown s oid

theorem near_refl (G : Gix ω) (s : Store ω) : Near G s s := by
  refine ⟨rfl, fun oid e cached => .inl ?_⟩
  simp [cached]

theorem header_near (near : Near G s t) (oid : ObjectId) :
    Gives (ExceptT.run (ObjectStore.header G oid)) t fun r u =>
      Near G s u ∧ (r.toBool = true → G.HeaderKnown s oid) := by
  unfold ObjectStore.header
  simp only [gives_run_bind, gives_access, sequel_ok]
  have looked : Near G s (t.getHeader oid).2 := ⟨near.world, Lru.get_cached near.headers oid⟩
  cases hit : (t.getHeader oid).1 with
  | some h =>
    refine ⟨looked, fun _ => ?_⟩
    rw [show (t.getHeader oid).1 = _ from Lru.get_value oid t.headerCache] at hit
    obtain ⟨e, cached, -⟩ := Option.map_eq_some_iff.mp hit
    exact near.headers oid e cached
  | none =>
    have missed : Near G s ((t.getHeader oid).2.missHeader).2 := ⟨looked.world, looked.headers⟩
    simp only [gives_run_bind, gives_access, sequel_ok, gives_ask, missed.world]
    rcases answer : G.tryFindHeader s.world oid with e | _ | h
    · exact ⟨missed, fun ok => by cases ok⟩
    · exact ⟨missed, fun ok => by cases ok⟩
    · have known : G.HeaderKnown s oid := .inr ⟨h, answer⟩
      exact ⟨⟨missed.world, Lru.put_cached missed.headers known⟩, fun _ => known⟩

theorem publishProbes_world (G : Gix ω) (F : Fetcher (StateM (Store ω))) (w : ω)
    (probes : List HeaderProbe) :
    Keeps (fun t : Store ω => t.world = w)
      (HydratingObjectStore.publishProbes ⟨G.handle, F⟩ probes) := by
  induction probes with
  | nil => exact keeps_pure _ _
  | cons probe rest ih =>
    refine keeps_bind ?_ fun _ => ih
    intro t here
    cases probe with
    | present oid => exact (header_near (near_refl G t) oid).1.world.trans here
    | presentWithHeader oid kind size => exact here
    | headerOnly oid kind size => exact here
    | error oid e => exact here

theorem pending_gives {inv : Store ω → Prop} {passed : ObjectId → Prop}
    {absent : ObjectId → StateM (Store ω) Bool}
    (tested : ∀ oid t, inv t → Gives (absent oid) t fun missing u =>
      inv u ∧ (missing = false → passed oid)) (oids : List ObjectId) (t : Store ω) (holds : inv t) :
    Gives (HydratingObjectStore.pending absent oids) t fun query u =>
      inv u ∧ query.Sublist oids ∧ ∀ oid ∈ oids, oid ∉ query → passed oid := by
  induction oids generalizing t with
  | nil => exact ⟨holds, .slnil, by simp⟩
  | cons oid rest ih =>
    unfold HydratingObjectStore.pending
    rw [gives_bind]
    apply (tested oid t holds).mono
    intro missing u given
    obtain ⟨kept, local_⟩ := given
    rw [gives_bind]
    apply (ih u kept).mono
    intro more v given
    obtain ⟨still, order, others⟩ := given
    cases missing with
    | true =>
      refine ⟨still, order.cons_cons oid, fun o member unasked => ?_⟩
      rcases List.mem_cons.mp member with rfl | later
      · exact absurd (List.mem_cons_self ..) unasked
      · exact others o later fun asked => unasked (List.mem_cons_of_mem _ asked)
    | false =>
      refine ⟨still, order.cons oid, fun o member unasked => ?_⟩
      rcases List.mem_cons.mp member with rfl | later
      · exact local_ rfl
      · exact others o later unasked

end

def Gix.lacksObject (G : Gix ω) (oid : ObjectId) : StateM (Store ω) Bool := do
  return !(← (G.handle : StoreHandle (StateM (Store ω))).contains oid)

def Gix.lacksHeader (G : Gix ω) (oid : ObjectId) : StateM (Store ω) Bool := do
  return !(← ((G.handle : StoreHandle (StateM (Store ω))).header oid).run).toBool

section
open HydratingObjectStore
variable (G : Gix ω) (F : Fetcher (StateM (Store ω)))

/-- The ids that `fetch_objects` asks the fetcher for, its reply, and the store after it. -/
def fetchQuery (oids : List ObjectId) (s : Store ω) : List ObjectId :=
  (asked G.lacksObject oids s).1

def fetchReply (oids : List ObjectId) (s : Store ω) : List HeaderProbe × Store ω :=
  replied G.lacksObject F.fetchObjects oids s

def headerQuery (oids : List ObjectId) (s : Store ω) : List ObjectId :=
  (asked G.lacksHeader oids s).1

def headerReply (oids : List ObjectId) (s : Store ω) : List HeaderProbe × Store ω :=
  replied G.lacksHeader F.prefetchHeaders oids s

theorem fetchObjects_batch (oids : List ObjectId) (s : Store ω)
    (post : List HeaderProbe → Store ω → Prop) :
    Gives (HydratingObjectStore.fetchObjects ⟨G.handle, F⟩ oids) s post ↔
      Gives (HydratingObjectStore.batch ⟨G.handle, F⟩ G.lacksObject F.fetchObjects oids) s post := by
  cases oids <;> rfl

end

def Failed (probes : List HeaderProbe) (oid : ObjectId) : Prop := ∃ e, .error oid e ∈ probes

def Succeeded (probes : List HeaderProbe) (oid : ObjectId) : Prop :=
  ∃ p ∈ probes, p.oid = oid ∧ p.isError = false

section
variable {oids query : List ObjectId} {probes : List HeaderProbe} {resident : ObjectId → Prop}

/-- The answers handed out are sound exactly if no repeated id was sent to the fetcher and
    not made resident without an error. -/
theorem handed_sound_iff (order : query.Sublist oids) (each : probes.map HeaderProbe.oid = query)
    (told : ∀ p ∈ probes, p.saysResident → resident p.oid)
    (unasked : ∀ oid ∈ oids, oid ∉ query → resident oid) :
    ((∀ p ∈ handOut .present oids (collect HeaderProbe.oid probes),
        p.saysResident → resident p.oid) ∧
      ∀ (i : Nat) oid, oids[i]? = some oid → Failed probes oid →
        ∃ e, (handOut .present oids (collect HeaderProbe.oid probes))[i]? = some (.error oid e)) ↔
    ∀ oid, 1 < oids.count oid → oid ∈ query → ¬ Failed probes oid ∧ resident oid := by
  constructor
  · intro sound oid twice asked
    obtain ⟨resident, failures⟩ := sound
    obtain ⟨i, j, earlier, first, second⟩ := two_places twice
    have again : (handOut .present oids (collect HeaderProbe.oid probes))[j]? =
        some (HeaderProbe.present oid) := handOut_again earlier first second
    constructor
    · intro failed
      obtain ⟨e, answer⟩ := failures j oid second failed
      cases again.symm.trans answer
    · exact resident _ (List.mem_of_getElem? again) rfl
  · intro clean
    -- What is handed out at a place: the filed probe, or `present` for an id that is there.
    have place : ∀ (i : Nat) p, (handOut .present oids (collect HeaderProbe.oid probes))[i]? = some p →
        p ∈ probes ∨ ∃ oid ∈ oids, p = .present oid ∧ resident oid := by
      intro i p at_
      rw [handOut_getElem?] at at_
      obtain ⟨oid, here, same⟩ := Option.map_eq_some_iff.mp at_
      have member := List.mem_of_getElem? here
      split at same
      · rename_i before
        refine .inr ⟨oid, member, same.symm, ?_⟩
        by_cases asked : oid ∈ query
        · exact (clean oid (twice_of_again here before) asked).2
        · exact unasked oid member asked
      · rcases filed : (collect HeaderProbe.oid probes).lookup oid with _ | q
        · rw [filed] at same
          refine .inr ⟨oid, member, same.symm, unasked oid member ?_⟩
          rw [← each]
          exact collect_none filed
        · rw [filed] at same
          exact .inl (same ▸ (collect_mem filed).1)
    constructor
    · intro p member reported
      obtain ⟨i, at_⟩ := List.mem_iff_getElem?.mp member
      rcases place i p at_ with given | ⟨oid, -, same, here⟩
      · exact told p given reported
      · exact same ▸ here
    · intro i oid here failed
      obtain ⟨e, given⟩ := failed
      have asked : oid ∈ query := each ▸ List.mem_map.mpr ⟨_, given, rfl⟩
      have once : oids.count oid ≤ 1 := by
        by_contra twice
        exact (clean oid (Nat.lt_of_not_le twice) asked).1 ⟨e, given⟩
      have fresh : oid ∉ oids.take i := fun before =>
        absurd (twice_of_again here before) (Nat.not_lt.mpr once)
      rcases filed : (collect HeaderProbe.oid probes).lookup oid with _ | q
      · exact absurd (each ▸ asked) (collect_none filed)
      · obtain ⟨stored, named⟩ := collect_mem filed
        have onceAsked : (probes.map HeaderProbe.oid).count oid ≤ 1 := by
          rw [each]
          exact (order.count_le oid).trans once
        have same := eq_of_count_le_one onceAsked stored given named rfl
        refine ⟨e, ?_⟩
        simp [handOut_getElem?, here, fresh, filed, same]

/-- A non-error is handed out only for a known or a successful id exactly if every repeated
    id that was sent to the fetcher is one. -/
theorem handed_known_iff {known : ObjectId → Prop} (each : probes.map HeaderProbe.oid = query)
    (unasked : ∀ oid ∈ oids, oid ∉ query → known oid) :
    (∀ p ∈ handOut .present oids (collect HeaderProbe.oid probes), p.isError = false →
      known p.oid ∨ Succeeded probes p.oid) ↔
    ∀ oid, 1 < oids.count oid → oid ∈ query → known oid ∨ Succeeded probes oid := by
  constructor
  · intro sound oid twice _
    obtain ⟨i, j, earlier, first, second⟩ := two_places twice
    have again : (handOut .present oids (collect HeaderProbe.oid probes))[j]? =
        some (HeaderProbe.present oid) := handOut_again earlier first second
    exact sound _ (List.mem_of_getElem? again) rfl
  · intro clean p member fine
    obtain ⟨i, at_⟩ := List.mem_iff_getElem?.mp member
    rw [handOut_getElem?] at at_
    obtain ⟨oid, here, same⟩ := Option.map_eq_some_iff.mp at_
    have inside := List.mem_of_getElem? here
    split at same
    · rename_i before
      subst same
      by_cases asked : oid ∈ query
      · exact clean oid (twice_of_again here before) asked
      · exact .inl (unasked oid inside asked)
    · rcases filed : (collect HeaderProbe.oid probes).lookup oid with _ | q
      · rw [filed] at same
        subst same
        refine .inl (unasked oid inside ?_)
        rw [← each]
        exact collect_none filed
      · rw [filed] at same
        subst same
        exact .inr ⟨q, (collect_mem filed).1, rfl, fine⟩

end

section
open HydratingObjectStore
variable {G : Gix ω} {F : Fetcher (StateM (Store ω))}

theorem lacksObject_gives (G : Gix ω) (oid : ObjectId) (t : Store ω) :
    Gives (G.lacksObject oid) t fun missing u =>
      u = t ∧ (missing = false → G.Resident t.world oid) := by
  unfold Gix.lacksObject
  rw [gives_bind]
  change Gives (ObjectStore.contains G oid) t _
  unfold ObjectStore.contains
  refine ⟨rfl, fun found => ?_⟩
  rcases told : G.tryFindObject t.world oid with e | _ | obj
  · simp [Gix.access, told] at found
    cases (show true = false from found)
  · simp [Gix.access, told] at found
    cases (show true = false from found)
  · exact ⟨obj, told⟩

theorem fetchQuery_spec (G : Gix ω) (oids : List ObjectId) (s : Store ω) :
    (asked G.lacksObject oids s).2 = s ∧ (fetchQuery G oids s).Sublist oids ∧
      ∀ oid ∈ oids, oid ∉ fetchQuery G oids s → G.Resident s.world oid := by
  have tested : ∀ oid t, t = s → Gives (G.lacksObject oid) t fun missing u =>
      u = s ∧ (missing = false → G.Resident s.world oid) := by
    intro oid t same
    subst same
    exact lacksObject_gives G oid t
  exact pending_gives tested oids s rfl

theorem fetchReply_spec (reliable : F.Reliable G) (oids : List ObjectId) (s : Store ω) :
    (fetchReply G F oids s).1.map HeaderProbe.oid = fetchQuery G oids s ∧
      (∀ p ∈ (fetchReply G F oids s).1, p.saysResident →
        G.Resident (fetchReply G F oids s).2.world p.oid) ∧
      ∀ oid, G.Resident s.world oid → G.Resident (fetchReply G F oids s).2.world oid := by
  obtain ⟨same, -, -⟩ := fetchQuery_spec G oids s
  unfold fetchReply replied
  split
  · rename_i none
    rw [same]
    exact ⟨(List.isEmpty_iff.mp none).symm, by simp, fun _ here => here⟩
  · rw [same]
    exact reliable.objects _ s

theorem headerQuery_spec (G : Gix ω) (oids : List ObjectId) (s : Store ω) :
    ∀ oid ∈ oids, oid ∉ headerQuery G oids s → G.HeaderKnown s oid := by
  have tested : ∀ oid t, Near G s t → Gives (G.lacksHeader oid) t fun missing u =>
      Near G s u ∧ (missing = false → G.HeaderKnown s oid) := by
    intro oid t near
    unfold Gix.lacksHeader
    rw [gives_bind]
    apply (header_near near oid).mono
    intro r u given
    obtain ⟨kept, known⟩ := given
    refine ⟨kept, fun found => known ?_⟩
    change (!r.toBool) = false at found
    simpa using found
  exact (pending_gives tested oids s (near_refl G s)).2.2

theorem headerReply_spec (reliable : F.Reliable G) (oids : List ObjectId) (s : Store ω) :
    (headerReply G F oids s).1.map HeaderProbe.oid = headerQuery G oids s := by
  unfold headerReply replied
  split
  · rename_i none
    exact (List.isEmpty_iff.mp none).symm
  · exact reliable.headers _ _

/-- What `fetch_objects` owes its caller, given what the fetcher replied. -/
structure FetchSound (G : Gix ω) (oids : List ObjectId) (reply probes : List HeaderProbe)
    (t : Store ω) : Prop where
  inOrder : probes.map HeaderProbe.oid = oids
  resident : ∀ p ∈ probes, p.saysResident → G.Resident t.world p.oid
  failures : ∀ (i : Nat) oid, oids[i]? = some oid → Failed reply oid →
    ∃ e, probes[i]? = some (.error oid e)

structure HeadersSound (G : Gix ω) (oids : List ObjectId) (s : Store ω)
    (reply probes : List HeaderProbe) : Prop where
  inOrder : probes.map HeaderProbe.oid = oids
  known : ∀ p ∈ probes, p.isError = false → G.HeaderKnown s p.oid ∨ Succeeded reply p.oid

/-- The batch calls are sound exactly when every repeated id that had to be fetched was
    fetched: made resident without an error, or with its header known or reported. -/
theorem batch_results_sound_iff (reliable : F.Reliable G) (oids : List ObjectId) (s : Store ω) :
    (Gives (HydratingObjectStore.fetchObjects ⟨G.handle, F⟩ oids) s
        (FetchSound G oids (fetchReply G F oids s).1) ↔
      ∀ oid, 1 < oids.count oid → oid ∈ fetchQuery G oids s →
        ¬ Failed (fetchReply G F oids s).1 oid ∧
          G.Resident (fetchReply G F oids s).2.world oid) ∧
    (Gives (HydratingObjectStore.prefetchHeaders ⟨G.handle, F⟩ oids) s
        (fun probes _ => HeadersSound G oids s (headerReply G F oids s).1 probes) ↔
      ∀ oid, 1 < oids.count oid → oid ∈ headerQuery G oids s →
        G.HeaderKnown s oid ∨ Succeeded (headerReply G F oids s).1 oid) := by
  have named : ∀ reply : List HeaderProbe,
      (handOut .present oids (collect HeaderProbe.oid reply)).map HeaderProbe.oid = oids :=
    fun reply => handOut_named (collect_filed _ _) (fun _ => rfl) oids
  constructor
  · obtain ⟨-, order, unasked⟩ := fetchQuery_spec G oids s
    obtain ⟨each, told, grows⟩ := fetchReply_spec reliable oids s
    rw [← handed_sound_iff order each told fun oid member here => grows oid (unasked oid member here),
      fetchObjects_batch, gives_batch]
    have world := publishProbes_world G F _ (fetchReply G F oids s).1 (fetchReply G F oids s).2 rfl
    unfold Gives at world ⊢
    unfold fetchReply at world ⊢
    dsimp only at world
    constructor
    · intro sound
      refine ⟨fun p member reported => ?_, sound.failures⟩
      rw [← world]
      exact sound.resident p member reported
    · intro sound
      refine ⟨named _, fun p member reported => ?_, sound.2⟩
      rw [world]
      exact sound.1 p member reported
  · rw [← handed_known_iff (headerReply_spec reliable oids s) (headerQuery_spec G oids s)]
    unfold HydratingObjectStore.prefetchHeaders
    rw [gives_batch]
    exact ⟨fun sound => sound.known, fun sound => ⟨named _, sound⟩⟩

theorem reliable_ofFetchObject
    {fetchObject : ObjectId → ExceptT FetcherError (StateM (Store ω)) Unit}
    (object : ∀ oid s, Gives (fetchObject oid).run s fun r t =>
      (∀ o, G.Resident s.world o → G.Resident t.world o) ∧
        (r = .ok () → G.Resident t.world oid)) :
    Fetcher.Reliable (.ofFetchObject fetchObject) G := by
  have one : ∀ oid s, Gives (probeByFetch fetchObject oid) s fun p t => p.oid = oid ∧
      (p.saysResident → G.Resident t.world p.oid) ∧
      ∀ o, G.Resident s.world o → G.Resident t.world o := by
    intro oid s
    unfold probeByFetch
    rw [gives_bind]
    apply (object oid s).mono
    intro r t given
    obtain ⟨grows, landed⟩ := given
    cases r with
    | error e => exact ⟨rfl, nofun, grows⟩
    | ok done => exact ⟨rfl, fun _ => landed rfl, grows⟩
  have each : ∀ oids s, Gives (fetchEach fetchObject oids) s fun probes t =>
      probes.map HeaderProbe.oid = oids ∧
        (∀ p ∈ probes, p.saysResident → G.Resident t.world p.oid) ∧
        ∀ oid, G.Resident s.world oid → G.Resident t.world oid := by
    intro oids
    induction oids with
    | nil => exact fun s => ⟨rfl, fun p among => absurd among List.not_mem_nil, fun _ here => here⟩
    | cons oid rest ih =>
      intro s
      rw [fetchEach_cons, gives_bind]
      apply (one oid s).mono
      intro p t given
      obtain ⟨named, told, grows⟩ := given
      rw [gives_bind]
      apply (ih t).mono
      intro probes u given
      obtain ⟨order, others, more⟩ := given
      rw [gives_pure]
      refine ⟨by simp [named, order], ?_, fun o here => more o (grows o here)⟩
      intro q among reported
      rcases List.mem_cons.mp among with rfl | later
      · exact more q.oid (told reported)
      · exact others q later reported
  exact ⟨each, fun oids s => (each oids s).mono fun _ _ known => known.1⟩

end

section Fixture

def fixtureStore : Store (List ObjectId) := .open []

theorem fixture_resident (w : List ObjectId) (oid : ObjectId) :
    fixtureGix.Resident w oid ↔ fixtureUniverse.resident w oid = true := by
  rw [resident_iff_found, Option.isSome_iff_exists]
  simp [Gix.Resident, fixtureGix]

theorem fixtureFetch_reliable :
    Fetcher.Reliable (.ofFetchObject fixtureFetch) fixtureGix := by
  apply reliable_ofFetchObject
  intro oid s
  unfold fixtureFetch
  rw [gives_run_mk, gives_modifyGet]
  simp only [fixture_resident]
  by_cases known : (fixtureBlob oid).isSome = true
  · simp only [known, if_true]
    refine ⟨fun o here => ?_, fun _ => by simp [fixtureUniverse, known]⟩
    simp_all [fixtureUniverse]
  · simp only [known, Bool.false_eq_true, if_false]
    exact ⟨fun _ here => here, by simp⟩

theorem noop_reliable : Fetcher.Reliable NoopFetcher fixtureGix := by
  apply reliable_ofFetchObject
  exact fun oid s => ⟨fun _ here => here, nofun⟩

theorem fixture_batch_sound :
    Gives (HydratingObjectStore.fetchObjects ⟨fixtureGix.handle, .ofFetchObject fixtureFetch⟩
        [fixtureId 7, fixtureId 7]) fixtureStore
      (FetchSound fixtureGix [fixtureId 7, fixtureId 7]
        (fetchReply fixtureGix (.ofFetchObject fixtureFetch) [fixtureId 7, fixtureId 7]
          fixtureStore).1) := by
  apply (batch_results_sound_iff fixtureFetch_reliable _ _).1.mpr
  intro oid twice asked
  have same : oid = fixtureId 7 := by
    have member := List.count_pos_iff.mp (Nat.lt_trans Nat.zero_lt_one twice)
    simpa using member
  subst same
  refine ⟨?_, (fixture_resident _ _).mpr (by decide +kernel)⟩
  intro failed
  obtain ⟨e, given⟩ := failed
  revert given
  have reply : (fetchReply fixtureGix (.ofFetchObject fixtureFetch) [fixtureId 7, fixtureId 7]
      fixtureStore).1 = [.present (fixtureId 7), .present (fixtureId 7)] := by decide +kernel
  simp [reply]

/-- A directory with two copies of a file that a local source lacks: the second copy is
    reported present. -/
theorem noop_repeated_id_unsound :
    Fetcher.Reliable NoopFetcher fixtureGix ∧
    ¬ Gives (HydratingObjectStore.fetchObjects ⟨fixtureGix.handle, NoopFetcher⟩
        [fixtureId 7, fixtureId 7]) fixtureStore
      (FetchSound fixtureGix [fixtureId 7, fixtureId 7]
        (fetchReply fixtureGix NoopFetcher [fixtureId 7, fixtureId 7] fixtureStore).1) ∧
    ¬ Gives (HydratingObjectStore.prefetchHeaders ⟨fixtureGix.handle, NoopFetcher⟩
        [fixtureId 7, fixtureId 7]) fixtureStore
      (fun probes _ => HeadersSound fixtureGix [fixtureId 7, fixtureId 7] fixtureStore
        (headerReply fixtureGix NoopFetcher [fixtureId 7, fixtureId 7] fixtureStore).1 probes) := by
  refine ⟨noop_reliable, fun sound => ?_, fun sound => ?_⟩
  · have here := sound.resident (.present (fixtureId 7)) (by decide +kernel) rfl
    rw [fixture_resident] at here
    revert here
    decide +kernel
  · rcases sound.known (.present (fixtureId 7)) (by decide +kernel) rfl with cached | succeeded
    · rcases cached with cached | ⟨h, found⟩
      · revert cached
        decide +kernel
      · cases found
    · obtain ⟨p, given, -, fine⟩ := succeeded
      have reply : (headerReply fixtureGix NoopFetcher [fixtureId 7, fixtureId 7] fixtureStore).1 =
          [.error (fixtureId 7) (.notHydratable (fixtureId 7)),
            .error (fixtureId 7) (.notHydratable (fixtureId 7))] := by decide +kernel
      rw [reply] at given
      simp only [List.mem_cons, List.not_mem_nil, or_false, or_self] at given
      subst given
      cases fine

end Fixture
end ProjgitStore

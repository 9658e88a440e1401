import Projgit.DaemonFetch
import Projgit.LooseObjects

/-!
Downloads into a shared object database are atomic. A writer owns the temporary file it has
created until it renames or removes it; files under an object's path are settled.
-/
namespace ProjgitGvfsHttp
open FileNames Interleave LabelledRuns ProjgitStore ProjgitErrors Utf8Bytes
variable {ω α : Type}

def IsObject (p : LoosePath) : Prop := ∃ oid, loosePath oid = p

def Host.Present (h : Host ω) (oid : ObjectId) : Prop :=
  h.packed oid = true ∨ ∃ i, h.objects.names (loosePath oid) = some i

theorem loosePath_injective {oid other : ObjectId} (same : loosePath oid = loosePath other) :
    oid = other := by
  obtain ⟨dir, file⟩ := LoosePath.mk.inj same
  have front := String.ofList_injective dir
  have back := String.ofList_injective file
  apply toHex_injective
  apply String.toList_inj.mp
  rw [← List.take_append_drop 2 oid.toHex.toList, front, back, List.take_append_drop]

/-- The name of a temporary file starts with a letter that is no hex digit. -/
theorem tmpPath_not_object (oid : ObjectId) (pid suffix : Nat) :
    ¬ IsObject (tmpPath oid pid suffix) := by
  rintro ⟨other, same⟩
  have file := congrArg (fun p => p.file.toList) same
  simp only [loosePath, tmpPath, String.toList_ofList, String.toList_append] at file
  have first : 't' ∈ other.toHex.toList.drop 2 := by
    rw [file]
    simp
  exact absurd (hex_digits other 't' (List.mem_of_mem_drop first)) (by decide)

/-- The temporary file of a writer, by name and inode. -/
abbrev Claimed := Option (LoosePath × Nat)

def Fits (complete : ObjectId → Bytes → Bool) (p : LoosePath) (bytes : Bytes) : Prop :=
  ∀ oid, loosePath oid = p → complete oid bytes = true

structure Orderly (complete : ObjectId → Bytes → Bool) (h : Host ω) : Prop where
  sound : Sound h.objects
  published : Published IsObject (Fits complete) h.objects

structure Onward (h k : Host ω) : Prop where
  kept : Kept IsObject h.objects k.objects
  present : ∀ oid, h.Present oid → k.Present oid

theorem onward_refl (h : Host ω) : Onward h h := ⟨kept_refl _, fun _ here => here⟩

theorem Onward.trans {h k l : Host ω} (first : Onward h k) (second : Onward k l) : Onward h l :=
  ⟨first.kept.trans second.kept, fun oid here => second.present oid (first.present oid here)⟩

def diskCustody (complete : ObjectId → Bytes → Bool) :
    Custody (Store (Host ω)) Claimed where
  inv s := Orderly complete s.world
  valid s r := ∀ p i, r = some (p, i) → ¬ IsObject p ∧ s.world.objects.names p = some i
  onward s t := Onward s.world t.world
  frame r s t := ∀ p i, r = some (p, i) →
    t.world.objects.contents i = s.world.objects.contents i
  apart r o := ∀ p i q j, r = some (p, i) → o = some (q, j) → p ≠ q ∧ i ≠ j
  nothing := none
  onward_refl s := onward_refl s.world
  onward_trans first second := first.trans second
  frame_refl _ _ _ _ _ := rfl
  frame_trans first second p i mine := (second p i mine).trans (first p i mine)
  apart_symm apart p i q j mine theirs := by
    obtain ⟨names, files⟩ := apart q j p i theirs mine
    exact ⟨names.symm, files.symm⟩
  apart_nothing _ _ _ _ _ none := nomatch none
  valid_nothing _ _ _ none := nomatch none

section
variable {complete : ObjectId → Bytes → Bool} {r r' : Claimed} {s t u : Store (Host ω)}
  {oid : ObjectId} {p : LoosePath} {file : Nat}

def files (s : Store (Host ω)) : Dir LoosePath UInt8 × (ObjectId → Bool) :=
  (s.world.objects, s.world.packed)

theorem diskCustody_seen : (diskCustody (ω := ω) complete).SeenThrough files where
  inv {s t} same inv := by
    obtain ⟨objects, -⟩ := Prod.mk.inj same
    refine ⟨?_, ?_⟩ <;> rw [objects]
    · exact inv.sound
    · exact inv.published
  valid {s t} r same valid p i mine := by
    obtain ⟨objects, -⟩ := Prod.mk.inj same
    rw [objects]
    exact valid p i mine
  onward {s t} same := by
    obtain ⟨objects, packed⟩ := Prod.mk.inj same
    refine ⟨?_, fun oid => ?_⟩
    · rw [objects]
      exact kept_refl _
    · rw [Host.Present, Host.Present, objects, packed]
      exact id
  frame {s t} r same p i _ := by
    obtain ⟨objects, -⟩ := Prod.mk.inj same
    rw [objects]

def Store.withObjects (s : Store (Host ω)) (objects : Dir LoosePath UInt8) (rest : ω) :
    Store (Host ω) :=
  { s with world := { s.world with objects := objects, rest := rest } }

/-- A change of the files that is fair: it keeps the database in order and what is visible,
    and the files that others have claimed. -/
theorem fair_of_change {d : Dir LoosePath UInt8} {rest : ω} (sound : Sound d)
    (published : Published IsObject (Fits complete) d)
    (kept : Kept IsObject t.world.objects d)
    (present : ∀ oid i, t.world.objects.names (loosePath oid) = some i →
      ∃ j, d.names (loosePath oid) = some j)
    (valid : ∀ p i, r' = some (p, i) → ¬ IsObject p ∧ d.names p = some i)
    (others : ∀ q j, (∀ p i, r = some (p, i) → p ≠ q ∧ i ≠ j) → ¬ IsObject q →
      t.world.objects.names q = some j → d.names q = some j ∧
        d.contents j = t.world.objects.contents j ∧ ∀ p i, r' = some (p, i) → p ≠ q ∧ i ≠ j) :
    (diskCustody complete).Fair r r' t (Store.withObjects t d rest) where
  inv := ⟨sound, published⟩
  valid := valid
  onward := by
    refine ⟨kept, fun oid here => ?_⟩
    rcases here with packed | ⟨i, named⟩
    · exact Or.inl packed
    · exact Or.inr (present oid i named)
  others := by
    intro o apart held
    refine ⟨fun p i q j mine theirs => ?_, fun q j theirs => ?_, fun q j theirs => ?_⟩
    · obtain ⟨draft, named⟩ := held q j theirs
      exact (others q j (fun p i mine => apart p i q j mine theirs) draft named).2.2 p i mine
    · obtain ⟨draft, named⟩ := held q j theirs
      exact ⟨draft, (others q j (fun p i mine => apart p i q j mine theirs) draft named).1⟩
    · obtain ⟨draft, named⟩ := held q j theirs
      exact (others q j (fun p i mine => apart p i q j mine theirs) draft named).2.1

theorem fileCall_secures {op : ω → Except String Unit × ω}
    {effect : Dir LoosePath UInt8 → Except String (α × Dir LoosePath UInt8)}
    {post : Except String α → Claimed → Store (Host ω) → Prop}
    (refused : ∀ t e v, (diskCustody complete).Rely r s t → (diskCustody complete).Rely r t v →
      post (.error e) r v)
    (done : ∀ t a d rest, (diskCustody complete).Rely r s t →
      effect t.world.objects = .ok (a, d) → ∃ r',
        (diskCustody complete).Fair r r' t (Store.withObjects t d rest) ∧
        ∀ v, (diskCustody complete).Rely r' (Store.withObjects t d rest) v → post (.ok a) r' v) :
    Secures (diskCustody complete) (fileCall op effect).run r s post := by
  refine secures_await fun t later answer u ran => ?_
  obtain ⟨rfl, rfl⟩ := Prod.mk.inj (Option.some.inj ran)
  cases acted : (op t.world.rest).1.bind fun _ => effect t.world.objects with
  | error e =>
    have same : files (Store.withObjects t t.world.objects (op t.world.rest).2) = files t := rfl
    simp only [acted]
    refine ⟨r, diskCustody_seen.fair later same, fun v next => refused t e v later ?_⟩
    exact (diskCustody_seen.rely later.here same).trans next
  | ok given =>
    obtain ⟨a, d⟩ := given
    have effected : effect t.world.objects = .ok (a, d) := by
      cases answered : (op t.world.rest).1 with
      | error e =>
        rw [answered] at acted
        cases acted
      | ok _ =>
        rw [answered] at acted
        exact acted
    simp only [acted]
    exact done t a d (op t.world.rest).2 later effected

variable (sys : Platform ω)

theorem pathExists_secures (oid : ObjectId) (r : Claimed) (s : Store (Host ω)) :
    Secures (diskCustody complete) (pathExists sys (loosePath oid)) r s fun found r' t =>
      r' = r ∧ (diskCustody complete).Rely r s t ∧ (found = true → t.world.Present oid) := by
  refine secures_await fun t later found u ran => ?_
  cases ran
  have same : files (ω := ω)
      { t with world := { t.world with rest := (sys.stat (loosePath oid) t.world.rest).2 } } =
      files t := rfl
  refine ⟨r, diskCustody_seen.fair later same, fun v next => ⟨rfl, ?_, fun there => ?_⟩⟩
  · exact (diskCustody_seen.rely later same).trans next
  · rw [Bool.and_eq_true, Option.isSome_iff_exists] at there
    exact next.onward.present oid (Or.inr there.2)

theorem openNew_secures (draft : ¬ IsObject p) (s : Store (Host ω)) :
    Secures (diskCustody complete) (openNew sys p).run none s fun answer r t =>
      ∀ file, answer = .ok file → r = some (p, file) ∧ t.world.objects.contents file = [] := by
  refine fileCall_secures (fun t e v _ _ file same => nomatch same)
    fun t file d rest later made => ?_
  cases vacant : t.world.objects.names p with
  | some i =>
    rw [vacant] at made
    cases made
  | none =>
    rw [vacant] at made
    cases made
    obtain ⟨sound, published⟩ := later.inv
    have elsewhere : ∀ q j, t.world.objects.names q = some j →
        (t.world.objects.create p []).names q = some j := by
      intro q j named
      rw [create_names, if_neg]
      · exact named
      · rintro rfl
        rw [vacant] at named
        cases named
    refine ⟨some (p, t.world.objects.next), fair_of_change (create_sound sound [])
      (create_published sound published fun final => absurd final draft) (create_kept [])
      (fun oid i named => ⟨i, elsewhere _ i named⟩) ?_ ?_, ?_⟩
    · intro q i mine
      cases mine
      exact ⟨draft, by rw [create_names, if_pos rfl]⟩
    · intro q j _ _ named
      have older : j < t.world.objects.next := sound.bounded q j named
      refine ⟨elsewhere q j named, create_contents [] older, fun p' i mine => ?_⟩
      cases mine
      refine ⟨?_, Nat.ne_of_gt older⟩
      rintro rfl
      rw [vacant] at named
      cases named
    · intro v next file' same
      cases same
      refine ⟨rfl, (next.frame p _ rfl).trans ?_⟩
      simp [Store.withObjects, Dir.create]

theorem writeByte_secures (op : ω → Except String Unit × ω) (b : UInt8) (s : Store (Host ω)) :
    Secures (diskCustody complete)
      (fileCall op fun d => .ok ((), d.append file b)).run (some (p, file)) s fun answer r t =>
        r = some (p, file) ∧ (answer = .ok () →
          t.world.objects.contents file = s.world.objects.contents file ++ [b]) := by
  refine fileCall_secures (fun t e v _ _ => ⟨rfl, nofun⟩) fun t a d rest later made => ?_
  cases made
  obtain ⟨draft, named⟩ := later.valid p file rfl
  obtain ⟨sound, published⟩ := later.inv
  refine ⟨some (p, file), fair_of_change (d := t.world.objects.append file b)
    ⟨sound.bounded, sound.single⟩ (append_published sound published named draft)
    (append_kept named draft) (fun oid i there => ⟨i, there⟩)
    (fun q i mine => later.valid q i mine) ?_, fun v next => ⟨rfl, fun _ => ?_⟩⟩
  · intro q j apart _ there
    refine ⟨there, Function.update_of_ne (apart p file rfl).2.symm _ _, apart⟩
  · rw [next.frame p file rfl, ← later.frame p file rfl]
    simp [Store.withObjects, Dir.append]

theorem writeAll_secures (bytes : Bytes) (s : Store (Host ω)) :
    Secures (diskCustody complete) (writeAll sys file bytes).run (some (p, file)) s
      fun answer r t => r = some (p, file) ∧ (answer = .ok () →
        t.world.objects.contents file = s.world.objects.contents file ++ bytes) := by
  induction bytes generalizing s with
  | nil =>
    refine secures_ret fun t later => ⟨rfl, fun _ => ?_⟩
    rw [later.frame p file rfl, List.append_nil]
  | cons b rest ih =>
    have first : Secures (diskCustody complete) _ (some (p, file)) s _ :=
      writeByte_secures (sys.write file) b s
    refine first.stable.runBind ?_ ?_
    · intro e r t here _ given
      exact ⟨(given t here).1, nofun⟩
    · intro _ r t here _ given
      obtain ⟨rfl, grown⟩ := given t here
      refine (ih t).mono fun answer r' u _ _ known => ⟨known.1, fun success => ?_⟩
      rw [known.2 success, grown rfl, List.append_assoc, List.singleton_append]

theorem removeFile_secures (s : Store (Host ω)) :
    Secures (diskCustody complete) (removeFile sys p).run (some (p, file)) s
      fun _ _ _ => True := by
  refine fileCall_secures (fun _ _ _ _ _ => trivial) fun t a d rest later made => ?_
  obtain ⟨draft, named⟩ := later.valid p file rfl
  rw [named] at made
  cases made
  obtain ⟨sound, published⟩ := later.inv
  refine ⟨none, fair_of_change (unlink_sound sound) (unlink_published published)
    unlink_kept ?_ nofun ?_, fun _ _ => trivial⟩
  · intro oid i there
    refine ⟨i, ?_⟩
    rw [unlink_names, if_neg]
    · exact there
    · intro same
      exact draft ⟨oid, same⟩
  · intro q j apart _ there
    refine ⟨?_, rfl, nofun⟩
    rw [unlink_names, if_neg (apart p file rfl).1.symm]
    exact there

theorem renameFile_secures (fits : Fits complete (loosePath oid) (s.world.objects.contents file)) :
    Secures (diskCustody complete) (renameFile sys p (loosePath oid)).run (some (p, file)) s
      fun answer r t => (answer = .ok () → t.world.Present oid) ∧
        (∀ e, answer = .error e → r = some (p, file)) := by
  refine fileCall_secures (fun t e v _ _ => ⟨nofun, fun _ _ => rfl⟩) fun t a d rest later made => ?_
  obtain ⟨draft, named⟩ := later.valid p file rfl
  rw [named] at made
  cases made
  obtain ⟨sound, published⟩ := later.inv
  have whole : Fits complete (loosePath oid) (t.world.objects.contents file) := by
    rw [later.frame p file rfl]
    exact fits
  refine ⟨none, fair_of_change (rename_sound sound) (rename_published published ?_)
    (rename_kept ⟨oid, rfl⟩) ?_ nofun ?_, fun v next => ⟨fun _ => ?_, nofun⟩⟩
  · intro i there _
    cases named.symm.trans there
    exact whole
  · intro other i there
    by_cases same : loosePath other = loosePath oid
    · exact ⟨file, by rw [rename_names, if_pos same, named]⟩
    · refine ⟨i, ?_⟩
      rw [rename_names, if_neg same, if_neg]
      · exact there
      · intro tmp
        exact draft ⟨other, tmp⟩
  · intro q j apart unfinished there
    refine ⟨?_, rfl, nofun⟩
    rw [rename_names, if_neg, if_neg (apart p file rfl).1.symm]
    · exact there
    · intro same
      exact unfinished ⟨oid, same.symm⟩
  · refine next.onward.present oid (Or.inr ⟨file, ?_⟩)
    rw [Store.withObjects, rename_names, if_pos rfl, named]

theorem system_secures (op : ω → α × ω) (r : Claimed) (s : Store (Host ω)) :
    Secures (diskCustody complete) (system op) r s fun a r' t =>
      r' = r ∧ (diskCustody complete).Rely r s t ∧ ∃ w, a = (op w).1 := by
  refine secures_await fun t later a u ran => ?_
  cases ran
  have same : files (ω := ω) { t with world := { t.world with rest := (op t.world.rest).2 } } =
      files t := rfl
  refine ⟨r, diskCustody_seen.fair later same, fun v next => ⟨rfl, ?_, t.world.rest, rfl⟩⟩
  exact (diskCustody_seen.rely later same).trans next

theorem fits_of_complete {bytes : Bytes} (whole : complete oid bytes = true) :
    Fits complete (loosePath oid) bytes := by
  intro other same
  rw [loosePath_injective same]
  exact whole

/-- The last steps, once the temporary file is complete. -/
def publishLoose (oid : ObjectId) (tmp : LoosePath) :
    ExceptT String (Prog (Store (Host ω))) Unit := do
  if ← (pathExists sys (loosePath oid) : Prog (Store (Host ω)) Bool) then
    let _ ← ExceptT.lift (removeFile sys tmp).run
    return ()
  match ← ExceptT.lift (renameFile sys tmp (loosePath oid)).run with
  | .ok () => return ()
  | .error e =>
    let _ ← ExceptT.lift (removeFile sys tmp).run
    throw e

theorem publishLoose_secures
    (fits : Fits complete (loosePath oid) (s.world.objects.contents file)) :
    Secures (diskCustody complete) (publishLoose sys oid p).run (some (p, file)) s
      fun answer _ t => answer = .ok () → t.world.Present oid := by
  apply (pathExists_secures sys oid _ s).runLift
  rintro found r t here - ⟨rfl, later, there⟩
  cases found with
  | true =>
    apply (removeFile_secures sys t).runLift
    intro _ r u _ onward _
    exact secures_ret fun v next _ => (onward.trans next.onward).present oid (there rfl)
  | false =>
    have whole : Fits complete (loosePath oid) (t.world.objects.contents file) := by
      rw [later.frame p file rfl]
      exact fits
    apply (renameFile_secures sys whole).stable.runLift
    intro answer r u here onward known
    cases answer with
    | ok _ => exact secures_ret fun v next _ => (known v next).1 rfl
    | error e =>
      obtain rfl := (known u here).2 e rfl
      apply (removeFile_secures sys u).runLift
      intro _ r v _ _ _
      exact secures_ret fun x next same => nomatch same

theorem writeLooseObject_secures {bytes : Bytes} (whole : complete oid bytes = true) (pid : Nat)
    (s : Store (Host ω)) :
    Secures (diskCustody complete) (writeLooseObject sys pid oid bytes).run none s
      fun answer _ t => answer = .ok () → t.world.Present oid := by
  apply (pathExists_secures sys oid none s).runLift
  rintro found r t - - ⟨rfl, -, there⟩
  cases found with
  | true => exact secures_ret fun u next _ => next.onward.present oid (there rfl)
  | false =>
    refine (system_secures _ none t).runBind ?_ ?_
    · intro e r u _ _ _ same
      cases same
    · rintro - r u - - ⟨rfl, -, -⟩
      apply (system_secures _ none u).runLift
      rintro suffix r v - - ⟨rfl, -, -⟩
      refine (openNew_secures sys (tmpPath_not_object oid pid suffix) v).stable.runBind ?_ ?_
      · intro e r x _ _ _ same
        cases same
      · intro file r x here _ opened
        obtain ⟨rfl, fresh⟩ := opened x here file rfl
        refine (writeAll_secures sys bytes x).stable.runBind ?_ ?_
        · intro e r y _ _ _ same
          cases same
        · intro _ r y here _ written
          obtain ⟨rfl, filled⟩ := written y here
          refine publishLoose_secures sys ?_
          rw [filled rfl, fresh, List.nil_append]
          exact fits_of_complete whole

variable {G : Gix (Host ω)}

theorem contains_secures (sees : G.Sees Host.Present) (oid : ObjectId) (r : Claimed)
    (s : Store (Host ω)) :
    Secures (diskCustody complete) (ObjectStore.contains G oid : Prog (Store (Host ω)) Bool) r s
      fun found r' t => r' = r ∧ (found = true → t.world.Present oid) := by
  intro t later found u ran
  cases ran
  refine ⟨r, diskCustody_seen.fair later rfl, fun v next => ⟨rfl, fun there => ?_⟩⟩
  refine next.onward.present oid ?_
  cases answered : G.tryFindObject t.world oid with
  | error e => simp [answered] at there
  | ok found =>
    simp only [answered] at there
    exact (sees.object t.world oid found answered).mp there

def ServesWhole (sys : Platform ω) (complete : ObjectId → Bytes → Bool) : Prop :=
  ∀ (client : GvfsClient) oid headers w bytes,
    (sys.get (client.objectUrl oid) headers w).1 = .ok (.ok bytes) → complete oid bytes = true

theorem getLooseObject_secures (served : ServesWhole sys complete) (client : GvfsClient)
    (oid : ObjectId) (r : Claimed) (s : Store (Host ω)) :
    Secures (diskCustody complete) (client.getLooseObject sys oid).run r s fun answer r' _ =>
      r' = r ∧ ∀ bytes, answer = .ok bytes → complete oid bytes = true := by
  apply (system_secures (sys.get (client.objectUrl oid) client.authHeaders) r s).runLift
  rintro response r t - - ⟨rfl, -, w, asked⟩
  cases response with
  | error e => exact secures_ret fun _ _ => ⟨rfl, nofun⟩
  | ok body =>
    cases body with
    | error e => exact secures_ret fun _ _ => ⟨rfl, nofun⟩
    | ok bytes =>
      refine secures_ret fun _ _ => ⟨rfl, fun given same => ?_⟩
      cases same
      exact served client oid _ w bytes asked.symm

def NotMissing (answer : Except FetcherError α) : Prop :=
  ∀ o, answer ≠ .error (.notPresentAfterFetch o)

theorem getLooseObject_answers (client : GvfsClient) (oid : ObjectId) :
    (client.getLooseObject sys oid).run.Answers NotMissing := by
  intro response
  cases response with
  | error e =>
    intro o same
    have differs : httpErrorToFetcher oid e ≠ .notPresentAfterFetch o := by
      unfold httpErrorToFetcher
      split <;> exact nofun
    exact differs (Except.error.inj same)
  | ok body => cases body <;> exact nofun

theorem backend_answers (x : ExceptT String (Prog (Store (Host ω))) α) (oid : ObjectId) :
    (ExceptT.adapt (fun e => FetcherError.backend oid ("write loose object: " ++ e)) x).run.Answers
      NotMissing := by
  refine (answers_any x.run).runAdapt fun answer _ => ?_
  cases answer <;> exact nofun

structure Settles (task : Download) (answer : Except FetcherError Unit) (s : Store (Host ω)) :
    Prop where
  present : answer = .ok () → s.world.Present task.oid
  stored : ∀ o, answer = .error (.notPresentAfterFetch o) → s.world.Present task.oid

theorem rawFetch_secures (sees : G.Sees Host.Present) (served : ServesWhole sys complete)
    (task : Download) (s : Store (Host ω)) :
    Secures (diskCustody complete) (rawFetch sys G task).run none s
      fun answer _ t => Settles task answer t := by
  apply (contains_secures sees task.oid none s).runLift
  rintro found r t - - ⟨rfl, there⟩
  cases found with
  | true =>
    refine secures_ret fun u next => ⟨fun _ => next.onward.present _ (there rfl), nofun⟩
  | false =>
    have loaded := (getLooseObject_secures sys served task.client task.oid none t).and_answers
      (getLooseObject_answers sys task.client task.oid)
    apply loaded.runBind
    · rintro e r u - - ⟨-, other⟩
      refine ⟨nofun, fun o same => ?_⟩
      cases same
      exact absurd rfl (other o)
    · rintro bytes r u - - ⟨⟨rfl, whole⟩, -⟩
      have stored : Secures (diskCustody complete)
          (ExceptT.adapt (fun e => FetcherError.backend task.oid ("write loose object: " ++ e))
            (writeLooseObject sys task.pid task.oid bytes)).run none u
          fun answer _ v => answer = .ok () → v.world.Present task.oid := by
        refine (writeLooseObject_secures sys (whole bytes rfl) task.pid u).runAdapt _
          fun answer r v _ _ known => ?_
        cases answer with
        | error e => exact nofun
        | ok u => exact fun _ => known rfl
      refine (stored.stable.and_answers (backend_answers _ _)).runBind ?_ ?_
      · rintro e r v - - ⟨-, other⟩
        exact ⟨nofun, fun o same => absurd same (other o)⟩
      · rintro ⟨⟩ r v here - ⟨known, -⟩
        have present : v.world.Present task.oid := known v here rfl
        apply (contains_secures sees task.oid r v).runLift
        rintro found r x - onward -
        have still : x.world.Present task.oid := onward.present _ present
        cases found with
        | true => exact secures_ret fun y next => ⟨fun _ => next.onward.present _ still, nofun⟩
        | false => exact secures_ret fun y next => ⟨nofun, fun _ _ => next.onward.present _ still⟩

/-- gix does not find an object that the answer reports missing. -/
def Unread (G : Gix (Host ω)) (task : Download) (answer : Except FetcherError Unit)
    (s : Store (Host ω)) : Prop :=
  ∀ o, answer = .error (.notPresentAfterFetch o) →
    ∀ object, G.tryFindObject s.world task.oid ≠ .ok (some object)

theorem NotMissing.unread {task : Download} {e : FetcherError}
    (other : NotMissing (.error e : Except FetcherError α)) (s : Store (Host ω)) :
    Unread G task (.error e) s := by
  intro o same
  cases same
  exact absurd rfl (other o)

theorem contains_ends {task : Download}
    {f : Bool → ExceptT FetcherError (Prog (Store (Host ω))) Unit}
    (found : f true = pure ()) (missed : (f false).run.Ends (Unread G task)) :
    ((liftM (ObjectStore.contains G task.oid : Prog (Store (Host ω)) Bool) :
      ExceptT FetcherError (Prog (Store (Host ω))) Bool) >>= f).run.Ends (Unread G task) := by
  refine Prog.Ends.runLift ⟨fun s b t ran a last answer ended o same object read => ?_,
    fun _ => trivial⟩ fun present => ?_
  · cases ran
    cases last
    rw [read] at ended
    cases (congrArg ExceptT.run found).symm.trans ended
    cases same
  · cases present with
    | false => exact missed
    | true =>
      rw [found]
      trivial

/-- Only the last look at the store reports that the object is missing. -/
theorem rawFetch_ends (task : Download) : (rawFetch sys G task).run.Ends (Unread G task) := by
  refine contains_ends rfl ?_
  refine Prog.Ends.runBind (getLooseObject_answers sys task.client task.oid) ?_ ?_ fun bytes => ?_
  · exact fun e t other => other.unread t
  · exact fun bytes r => nofun
  · refine Prog.Ends.runBind (backend_answers _ _) ?_ ?_ fun _ => ?_
    · exact fun e t other => other.unread t
    · exact fun _ r => nofun
    · exact contains_ends rfl trivial

/-! ### What happens elsewhere -/

theorem elsewhere_calm {e : Elsewhere ω} (happened : elsewhere complete s e = some t)
    (inv : Orderly complete s.world) :
    (diskCustody complete).inv t ∧ (diskCustody complete).onward s t ∧
      ∀ r, (diskCustody complete).valid s r →
        (diskCustody complete).valid t r ∧ (diskCustody complete).frame r s t := by
  obtain ⟨sound, published⟩ := inv
  have draftOther : ∀ {q : LoosePath} {oid : ObjectId}, ¬ IsObject q → q ≠ loosePath oid := by
    rintro q oid draft rfl
    exact draft ⟨oid, rfl⟩
  cases e with
  | install oid bytes =>
    simp only [elsewhere] at happened
    split at happened
    · rename_i whole
      cases happened
      refine ⟨⟨create_sound sound _, create_published sound published fun _ =>
        fits_of_complete whole⟩, ⟨create_kept _, fun other here => ?_⟩, fun r held => ?_⟩
      · rcases here with packed | ⟨i, named⟩
        · exact Or.inl packed
        · refine Or.inr ?_
          rw [create_names]
          split
          · exact ⟨_, rfl⟩
          · exact ⟨i, named⟩
      · refine ⟨fun q j mine => ?_, fun q j mine => ?_⟩
        · obtain ⟨draft, named⟩ := held q j mine
          exact ⟨draft, by rw [create_names, if_neg (draftOther draft), named]⟩
        · exact create_contents _ (sound.bounded q j (held q j mine).2)
    · cases happened
  | pack oid =>
    cases happened
    refine ⟨⟨sound, published⟩, ⟨kept_refl _, fun other here => ?_⟩, fun r held =>
      ⟨held, fun _ _ _ => rfl⟩⟩
    rcases here with packed | named
    · refine Or.inl ?_
      by_cases same : other = oid
      · simp [same]
      · simp [Function.update_of_ne same, packed]
    · exact Or.inr named
  | prunePacked oid =>
    simp only [elsewhere] at happened
    split at happened
    · rename_i packedToo
      cases happened
      refine ⟨⟨unlink_sound sound, unlink_published published⟩,
        ⟨unlink_kept, fun other here => ?_⟩, fun r held => ⟨fun q j mine => ?_, fun _ _ _ => rfl⟩⟩
      · by_cases same : loosePath other = loosePath oid
        · rw [loosePath_injective same]
          exact Or.inl packedToo
        · rcases here with packed | ⟨i, named⟩
          · exact Or.inl packed
          · exact Or.inr ⟨i, by rw [unlink_names, if_neg same, named]⟩
      · obtain ⟨draft, named⟩ := held q j mine
        exact ⟨draft, by rw [unlink_names, if_neg (draftOther draft), named]⟩
    · cases happened
  | drift rest =>
    cases happened
    exact ⟨⟨sound, published⟩, ⟨kept_refl _, fun _ here => here⟩, fun r held =>
      ⟨held, fun _ _ _ => rfl⟩⟩

end

abbrev downloadStep (sys : Platform ω) (G : Gix (Host ω)) (complete : ObjectId → Bytes → Bool) :=
  Pool.step (ε := Elsewhere ω) (fun task : Download => (rawFetch sys G task).run)
    (elsewhere complete)

section
variable {sys : Platform ω} {G : Gix (Host ω)} {complete : ObjectId → Bytes → Bool}
  {s : Store (Host ω)} {events : List (Event Download (Elsewhere ω))}
  {p : Pool (Store (Host ω)) Download (Except FetcherError Unit)}

theorem run_settles (sees : G.Sees Host.Present) (served : ServesWhole sys complete)
    (orderly : Orderly complete s.world)
    (run : exec (downloadStep sys G complete) ⟨s, []⟩ events = some p) :
    ∃ held, Pool.Secure (diskCustody complete) (fun task answer _ t => Settles task answer t)
      p held := by
  have start : ∃ held, Pool.Secure (diskCustody complete)
      (fun task answer _ t => Settles task answer t)
      (⟨s, []⟩ : Pool (Store (Host ω)) Download (Except FetcherError Unit)) held :=
    ⟨fun _ => none, orderly, fun _ _ => rfl, fun _ _ _ _ _ _ _ none => (nomatch none),
      fun _ _ _ none => (nomatch none), fun _ _ _ found => (nomatch found)⟩
  exact Pool.run_secure (fun task _ _ => rawFetch_secures sys sees served task _)
    (fun _ _ _ happened inv => elsewhere_calm happened inv) run start

theorem run_goesOn (sees : G.Sees Host.Present) (served : ServesWhole sys complete)
    (orderly : Orderly complete s.world)
    (run : exec (downloadStep sys G complete) ⟨s, []⟩ events = some p)
    {later : List (Event Download (Elsewhere ω))}
    {q : Pool (Store (Host ω)) Download (Except FetcherError Unit)}
    (goesOn : exec (downloadStep sys G complete) p later = some q) :
    Onward p.shared.world q.shared.world :=
  Pool.run_onward (C := diskCustody complete)
    (fun task _ _ => rawFetch_secures sys sees served task _)
    (fun _ _ _ happened inv => elsewhere_calm happened inv) goesOn
    (run_settles sees served orderly run)

end

/-- Whatever downloads, failures and housekeeping came before: every file under an object's
    path is whole, and keeps its bytes for good; a download that answered `Ok` left its object
    there; and one that answered `NotPresentAfterFetch` did so when the object was there and
    gix failed to read it. -/
theorem downloads_are_atomic {sys : Platform ω} {G : Gix (Host ω)}
    {complete : ObjectId → Bytes → Bool} (sees : G.Sees Host.Present)
    (served : ServesWhole sys complete) {s : Store (Host ω)} (orderly : Orderly complete s.world)
    {events later : List (Event Download (Elsewhere ω))}
    {p q : Pool (Store (Host ω)) Download (Except FetcherError Unit)}
    (run : exec (downloadStep sys G complete) ⟨s, []⟩ events = some p)
    (goesOn : exec (downloadStep sys G complete) p later = some q) :
    (∀ oid i, p.shared.world.objects.names (loosePath oid) = some i →
      complete oid (p.shared.world.objects.contents i) = true ∧
        q.shared.world.objects.contents i = p.shared.world.objects.contents i) ∧
    (∀ (i : Nat) task, p.threads[i]? = some (task, .ret (.ok ())) →
      q.shared.world.Present task.oid) ∧
    ∀ (i : Nat) task o, p.threads[i]? = some (task, .ret (.error (.notPresentAfterFetch o))) →
      q.shared.world.Present task.oid ∧ ∃ before after mid e, events = before ++ after ∧
        exec (downloadStep sys G complete) ⟨s, []⟩ before = some mid ∧
        mid.shared.world.Present task.oid ∧
        G.tryFindObject mid.shared.world task.oid = .error e := by
  obtain ⟨held, secure⟩ := run_settles sees served orderly run
  have onward := run_goesOn sees served orderly run goesOn
  refine ⟨fun oid i named => ⟨?_, ?_⟩, fun i task done => ?_, fun i task o done => ⟨?_, ?_⟩⟩
  · exact secure.inv.published _ i ⟨oid, rfl⟩ named oid rfl
  · exact (onward.kept i (secure.inv.sound.settled ⟨oid, rfl⟩ named)).2
  · exact onward.present _ ((secure.finished done).present rfl)
  · exact onward.present _ ((secure.finished done).stored o rfl)
  · rcases Pool.run_ended (rawFetch_ends sys) run done with
      atOnce | ⟨before, after, mid, parts, reach, ended, unread⟩
    · cases atOnce
    · obtain ⟨held, secure⟩ := run_settles sees served orderly reach
      have here := (secure.finished ended).stored o rfl
      cases read : G.tryFindObject mid.shared.world task.oid with
      | error e => exact ⟨before, after, mid, e, parts, reach, here, read⟩
      | ok found =>
        have there := (sees.object _ _ found read).mpr here
        obtain ⟨object, rfl⟩ := Option.isSome_iff_exists.mp there
        exact absurd read (unread o rfl object)

/-! ### Two processes that want the empty blob -/

open ProjgitDaemon (emptyBlob)

def looseEmptyBlob : Bytes :=
  [0x78, 0x01, 0x4b, 0xca, 0xc9, 0x4f, 0x52, 0x30, 0x60, 0x00, 0x00, 0x09, 0xb0, 0x01, 0xf0]

def blobRemote : GvfsClient := ⟨"https://host/repo", .none⟩

def blobComplete (oid : ObjectId) (bytes : Bytes) : Bool :=
  decide (oid = emptyBlob) && decide (bytes = looseEmptyBlob)

def blobPlatform : Platform Unit where
  get url _ w :=
    (if url = blobRemote.objectUrl emptyBlob then .ok (.ok looseEmptyBlob)
      else .error (.status 404), w)
  stat _ w := (true, w)
  createDirAll _ w := (.ok (), w)
  openNew _ w := (.ok (), w)
  write _ w := (.ok (), w)
  rename _ _ w := (.ok (), w)
  removeFile _ w := (.ok (), w)
  uniqueSuffix w := (7, w)

def Host.shows (h : Host Unit) (oid : ObjectId) : Bool :=
  h.packed oid || (h.objects.names (loosePath oid)).isSome

def blobGix : Gix (Host Unit) where
  tryFindObject h oid := .ok (if h.shows oid then some ⟨.blob, []⟩ else none)
  tryFindHeader h oid := .ok (if h.shows oid then some (.blob, 0) else none)
  treeIter _ := []
  commitTreeId _ := .error "not a commit"
  committerSeconds _ := .error "not a commit"
  findReference _ _ := .error "no such reference"

def emptyHost : Store (Host Unit) := .withCapacities 4 64 64 4 ⟨.empty, fun _ => false, ()⟩

/-- The first process is stopped between two bytes; the second one downloads the object. -/
def stoppedRun : List (Event Download (Elsewhere Unit)) :=
  .start ⟨1, blobRemote, emptyBlob⟩ :: .start ⟨2, blobRemote, emptyBlob⟩ ::
    List.replicate 11 (.advance 0) ++ List.replicate 24 (.advance 1)

theorem shows_iff (h : Host Unit) (oid : ObjectId) : h.shows oid = true ↔ h.Present oid := by
  simp [Host.shows, Host.Present, Option.isSome_iff_exists]

theorem blobGix_sees : blobGix.Sees Host.Present := by
  constructor <;> intro h oid found answered <;> cases answered <;> rw [← shows_iff] <;>
    cases h.shows oid <;> simp

theorem blobPlatform_serves : ServesWhole blobPlatform blobComplete := by
  intro client oid headers w bytes served
  simp only [blobPlatform] at served
  split at served
  · rename_i same
    cases served
    rw [(objectUrl_inj.mp same).2]
    decide
  · cases served

theorem stoppedRun_result :
    (exec (downloadStep blobPlatform blobGix blobComplete) ⟨emptyHost, []⟩ stoppedRun).map
        (fun p => (p.threads.map (·.1.oid), p.outcomes)) =
      some ([emptyBlob, emptyBlob], [none, some (.ok ())]) ∧
    (exec (downloadStep blobPlatform blobGix blobComplete) ⟨emptyHost, []⟩
        (stoppedRun ++ List.replicate 13 (.advance 0))).map Pool.outcomes =
      some [some (.ok ()), some (.ok ())] := by
  decide +kernel

theorem stopped_download_is_atomic :
    ∃ p q,
      exec (downloadStep blobPlatform blobGix blobComplete) ⟨emptyHost, []⟩ stoppedRun = some p ∧
      exec (downloadStep blobPlatform blobGix blobComplete) p (List.replicate 13 (.advance 0)) =
        some q ∧
      q.shared.world.Present emptyBlob ∧
      ∀ i, p.shared.world.objects.names (loosePath emptyBlob) = some i →
        blobComplete emptyBlob (p.shared.world.objects.contents i) = true := by
  obtain ⟨p, run, result⟩ := Option.map_eq_some_iff.mp stoppedRun_result.1
  obtain ⟨oids, outcomes⟩ := Prod.mk.inj result
  obtain ⟨q, whole, -⟩ := Option.map_eq_some_iff.mp stoppedRun_result.2
  obtain ⟨mid, first, goesOn⟩ := exec_append_some whole
  cases run.symm.trans first
  have orderly : Orderly blobComplete emptyHost.world :=
    ⟨⟨fun _ _ none => (nomatch none), fun _ _ _ none => (nomatch none)⟩,
      fun _ _ _ none => (nomatch none)⟩
  have atomic := downloads_are_atomic blobGix_sees blobPlatform_serves orderly run goesOn
  obtain ⟨task, done⟩ := Pool.returned_of_outcomes (p := p) (i := 1) (by rw [outcomes]; rfl)
  have wanted : task.oid = emptyBlob := by
    have second := congrArg (·[1]?) oids
    simpa [done] using second
  refine ⟨p, q, run, goesOn, ?_, fun i named => (atomic.1 emptyBlob i named).1⟩
  rw [← wanted]
  exact atomic.2.1 1 task done

end ProjgitGvfsHttp

import Projgit.RegistryRuns
import Projgit.CloneNames

/-!
Two spellings of one remote in the control plane: the handlers compare the texts, while
the clone directory is chosen by the canonical form.
-/
namespace ProjgitRegistry
open Utf8Bytes ProjgitStore ProjgitProtocol LabelledRuns

/-- Both sources are URLs, and `attach_source` selects one directory for them. -/
def SameClone (setup : Setup) (source other : String) : Prop :=
  looksLikeUrl source = true ∧ looksLikeUrl other = true ∧
    cacheSubdirForUrl setup.hash source = cacheSubdirForUrl setup.hash other

def Canonicalizes (host : Host) : Request → Prop
  | .mount _ _ mountpoint _ _ => ∃ path, host.canonicalize mountpoint = .ok path
  | _ => True

def refusedAsOther (reply : Option Response) : Prop :=
  ∃ message, reply = some (.err Codes.sourceMismatch message)

/-- A request for a source of the bound clone is not refused as one for another source. -/
def Accepts (setup : Setup) (e : Exchange) : Prop :=
  ∀ bound gitDir source, e.before.binding = some (bound, gitDir) →
    sourceOf e.call.request = some source → SameClone setup bound source →
      ¬ refusedAsOther e.reply

/-- The request spells the source as it is bound, or is answered before the two are compared. -/
def NamesBound (setup : Setup) (e : Exchange) : Prop :=
  ∀ bound gitDir source, e.before.binding = some (bound, gitDir) →
    sourceOf e.call.request = some source → SameClone setup bound source →
      source = bound ∨ e.before.poisoned = true ∨ ¬ Canonicalizes e.call.host e.call.request

section
variable {setup : Setup} {host : Host} {request : Request} {s : DaemonState}

theorem not_refusedAsOther_refuse (s : DaemonState) (message : String) {code : String}
    (differs : code ≠ Codes.sourceMismatch) : ¬ refusedAsOther (s.refuse code message).1 := by
  rintro ⟨text, same⟩
  simp only [DaemonState.refuse, Option.some.injEq, Response.err.injEq] at same
  exact differs same.1

theorem refusedAsOther_locked (s : DaemonState) (text : String) (answer : Answer) :
    refusedAsOther (if s.poisoned then s.refuse Codes.internal text else answer).1 ↔
      s.poisoned = false ∧ refusedAsOther answer.1 := by
  cases lock : s.poisoned with
  | true =>
    have early : ¬ refusedAsOther (s.refuse Codes.internal text).1 :=
      not_refusedAsOther_refuse s text (by decide)
    simp [early]
  | false => simp

theorem mountOn_not_refusedAsOther (host : Host) (s : DaemonState) (refName : String)
    (mountpoint : PathBuf) (noDotgit allowOther : Bool) (repo : ActiveRepo) :
    ¬ refusedAsOther (mountOn host refName mountpoint noDotgit allowOther repo s).1 := by
  unfold mountOn
  split
  · exact not_refusedAsOther_refuse _ _ (by decide)
  · split
    · exact not_refusedAsOther_refuse _ _ (by decide)
    · rintro ⟨text, same⟩
      cases same
    · split
      · rintro ⟨text, same⟩
        cases same
      · simp only [finishMount, DaemonState.nextProjectionId]
        split
        · exact not_refusedAsOther_refuse _ _ (by decide)
        · rintro ⟨text, same⟩
          cases same
        · split
          · rintro ⟨text, same⟩
            cases same
          · rintro ⟨text, same⟩
            cases same

theorem bindFirst_compares (setup : Setup) (host : Host) {bound : String} {gitDir : PathBuf}
    (before : s.binding = some (bound, gitDir)) (source : String) (mismatch : String → String) :
    ∃ repo, bindFirst setup host source mismatch s =
      if bound ≠ source then .error (s.refuse Codes.sourceMismatch (mismatch bound))
      else .ok (repo, s) := by
  obtain ⟨repo, active, same⟩ := Option.map_eq_some_iff.mp before
  refine ⟨repo, ?_⟩
  rw [bindFirst_bound active, (Prod.mk.inj same).1]

theorem refusedAsOther_iff {bound source : String} {gitDir : PathBuf}
    (before : s.binding = some (bound, gitDir)) (named : sourceOf request = some source) :
    refusedAsOther (dispatch setup host request s).1 ↔
      s.poisoned = false ∧ Canonicalizes host request ∧ bound ≠ source := by
  cases request with
  | mount source' refName mountpoint noDotgit allowOther =>
    cases named
    obtain ⟨repo, opens⟩ := bindFirst_compares setup host before source (mountMismatch source)
    simp only [dispatch, handleMount, Canonicalizes, opens]
    cases found : host.canonicalize mountpoint with
    | error e =>
      have early : ¬ refusedAsOther
          (s.refuse Codes.mountFailed (canonicalizeFailed mountpoint e)).1 :=
        not_refusedAsOther_refuse s _ (by decide)
      simp [early]
    | ok path =>
      rw [refusedAsOther_locked]
      by_cases same : bound = source
      · have later := mountOn_not_refusedAsOther host s refName path noDotgit allowOther repo
        simp [same, later]
      · simp [same, refusedAsOther, DaemonState.refuse]
  | attach source' =>
    cases named
    obtain ⟨repo, opens⟩ := bindFirst_compares setup host before source (attachMismatch source)
    simp only [dispatch, handleAttach, Canonicalizes, opens]
    rw [refusedAsOther_locked]
    by_cases same : bound = source
    · simp [same, refusedAsOther]
    · simp [same, refusedAsOther, DaemonState.refuse]
  | ping | status | shutdown | umount | fetch | prefetchHeaders | fetchMany => cases named

/-- Each reply of the log is the one `dispatch` gave in the state it found. -/
def Replied (setup : Setup) (log : Log) : Prop :=
  ∀ e ∈ log.past, e.reply = (dispatch setup e.call.host e.call.request e.before).1

theorem record_replied {log next : Log} {call : Call} (taken : record setup log call = some next)
    (replied : Replied setup log) : Replied setup next := by
  cases Option.some.inj taken
  intro e member
  obtain earlier | now := List.mem_append.mp member
  · exact replied e earlier
  · cases List.mem_singleton.mp now
    rfl

theorem run_replied {calls : List Call} {log : Log}
    (run : exec (record setup) .start calls = some log) : Replied setup log := by
  have start : Replied setup .start := by
    intro e member
    cases member
  exact exec_keeps (fun _ _ _ taken replied => record_replied taken replied) run start

theorem accepts_iff {e : Exchange}
    (replied : e.reply = (dispatch setup e.call.host e.call.request e.before).1) :
    Accepts setup e ↔ NamesBound setup e := by
  unfold Accepts NamesBound
  refine forall_congr' fun bound => forall_congr' fun gitDir => forall_congr' fun source =>
    imp_congr_right fun before => imp_congr_right fun named => imp_congr_right fun _ => ?_
  rw [replied, refusedAsOther_iff before named]
  constructor
  · intro accepted
    by_cases same : source = bound
    · exact Or.inl same
    · by_cases lock : e.before.poisoned = true
      · exact Or.inr (Or.inl lock)
      · refine Or.inr (Or.inr fun canonical => accepted ⟨?_, canonical, Ne.symm same⟩)
        simpa using lock
  · rintro (same | lock | canonical) ⟨unpoisoned, canonicalizes, differs⟩
    · exact differs same.symm
    · rw [lock] at unpoisoned
      cases unpoisoned
    · exact canonical canonicalizes

theorem equivalent_accepted_iff {calls : List Call} {log : Log}
    (run : exec (record setup) .start calls = some log) :
    (∀ e ∈ log.past, Accepts setup e) ↔ ∀ e ∈ log.past, NamesBound setup e := by
  have replied := run_replied run
  exact forall₂_congr fun e member => accepts_iff (replied e member)

end

/- A cache with a clone in it, and one repository spelled in two ways. -/

def urlSetup : Setup :=
  { plainSetup with cacheDir := some (pathOf "/cache"), hash := ProjgitCli.strHash }

def fooBarUrl : String := "https://github.com/foo/bar"
def fooBarGitUrl : String := "https://github.com/foo/bar.git"

def attachTo (source : String) : Call := ⟨.attach source, plainHost (.ok ())⟩

def mountOf (source : String) : Call :=
  ⟨.mount source "main" mountPath true false, plainHost (.ok ())⟩

theorem foo_bar_same_clone : SameClone urlSetup fooBarUrl fooBarGitUrl := by
  refine ⟨?_, ?_, ?_⟩ <;> decide +kernel

theorem respelled_source_refused :
    SameClone urlSetup fooBarUrl fooBarGitUrl ∧
      ∃ log, exec (record urlSetup) .start [attachTo fooBarUrl, attachTo fooBarGitUrl] =
          some log ∧
        ∃ e ∈ log.past, e.before.binding.map Prod.fst = some fooBarUrl ∧
          sourceOf e.call.request = some fooBarGitUrl ∧ refusedAsOther e.reply := by
  refine ⟨foo_bar_same_clone, _, rfl, _, List.mem_append_right _ (List.mem_singleton.mpr rfl),
    by decide +kernel, rfl, attachMismatch fooBarGitUrl fooBarUrl, by decide +kernel⟩

theorem same_spelling_accepted :
    ∃ log, exec (record urlSetup) .start [attachTo fooBarUrl, mountOf fooBarUrl] = some log ∧
      ∀ e ∈ log.past, Accepts urlSetup e := by
  refine ⟨_, rfl,
    (@equivalent_accepted_iff urlSetup [attachTo fooBarUrl, mountOf fooBarUrl] _ rfl).mpr ?_⟩
  intro e member bound gitDir source before named _
  obtain first | now := List.mem_append.mp member
  · obtain none_ | here := List.mem_append.mp first
    · cases none_
    · cases List.mem_singleton.mp here
      cases before
  · cases List.mem_singleton.mp now
    have known : (dispatch urlSetup (attachTo fooBarUrl).host (attachTo fooBarUrl).request
        .new).2.binding.map Prod.fst = some fooBarUrl := by decide +kernel
    have same : some bound = some fooBarUrl := by
      rw [← known]
      exact (congrArg (Option.map Prod.fst) before).symm
    cases named
    exact Or.inl (Option.some.inj same).symm

end ProjgitRegistry

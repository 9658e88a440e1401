import Projgit.RegistryRuns

/-!
What a refused `Mount` leaves behind. Its source is bound before the ref is looked at, so the
first `Mount` whose source opens fixes the source, refused or not, as an `Attach` would have;
no other trace of it is left but a projection id. Two daemons that differ in ids only answer
everything but `Status` alike.
-/
namespace ProjgitRegistry
open Utf8Bytes ProjgitStore ProjgitProtocol LabelledRuns

/-- Equal but for refs and ids, which only `Status` reads. -/
structure SameRepo (a b : ActiveRepo) : Prop where
  source : a.source = b.source
  gitDir : a.gitDir = b.gitDir
  backend : a.backend = b.backend
  keys : a.mounts.keys = b.mounts.keys

structure Same (s t : DaemonState) : Prop where
  poisoned : s.poisoned = t.poisoned
  active : Option.Rel SameRepo s.active t.active

structure SameAnswer (a b : Answer) : Prop where
  reply : a.1 = b.1
  state : Same a.2 b.2

section
variable {setup : Setup} {host : Host} {request : Request} {s t : DaemonState} {a b : ActiveRepo}

theorem SameRepo.refl (a : ActiveRepo) : SameRepo a a := ⟨rfl, rfl, rfl, rfl⟩

theorem Same.refl (s : DaemonState) : Same s s := by
  refine ⟨rfl, ?_⟩
  cases s.active with
  | none => exact .none
  | some repo => exact .some (.refl repo)

theorem SameRepo.mem (same : SameRepo a b) (path : PathBuf) : path ∈ a.mounts ↔ path ∈ b.mounts := by
  rw [AList.mem_keys, AList.mem_keys, same.keys]

theorem Same.refuse (same : Same s t) (code message : String) :
    SameAnswer (s.refuse code message) (t.refuse code message) := ⟨rfl, same⟩

theorem Same.panicked (same : Same s t) : SameAnswer s.panicked t.panicked := ⟨rfl, rfl, same.active⟩

theorem Same.taken (same : Same s t) : Same s.nextProjectionId.2 t.nextProjectionId.2 :=
  ⟨same.poisoned, same.active⟩

theorem Same.register (same : Same s t) (repos : SameRepo a b) (path : PathBuf)
    (entry entry' : MountEntry) : Same (s.register a path entry) (t.register b path entry') := by
  refine ⟨same.poisoned, .some ⟨repos.source, repos.gitDir, repos.backend, ?_⟩⟩
  rw [AList.keys_insert, AList.keys_insert, repos.keys]

def SameBound : Except Answer (ActiveRepo × DaemonState) →
    Except Answer (ActiveRepo × DaemonState) → Prop
  | .error a, .error b => SameAnswer a b
  | .ok a, .ok b => SameRepo a.1 b.1 ∧ Same a.2 b.2
  | _, _ => False

theorem Same.cases (same : Same s t) : (s.active = none ∧ t.active = none) ∨
    ∃ a b, s.active = some a ∧ t.active = some b ∧ SameRepo a b := by
  obtain ⟨-, active⟩ := same
  cases left : s.active with
  | none =>
    rw [left] at active
    cases right : t.active with
    | none => exact .inl ⟨rfl, rfl⟩
    | some b => rw [right] at active; cases active
  | some a =>
    rw [left] at active
    cases right : t.active with
    | none => rw [right] at active; cases active
    | some b =>
      rw [right] at active
      cases active with
      | some repos => exact .inr ⟨a, b, rfl, rfl, repos⟩

theorem bindFirst_same (setup : Setup) (host : Host) (same : Same s t) (source : String)
    (mismatch : String → String) :
    SameBound (bindFirst setup host source mismatch s) (bindFirst setup host source mismatch t) := by
  obtain ⟨left, right⟩ | ⟨a, b, left, right, repos⟩ := same.cases
  · simp only [bindFirst, left, right]
    cases opened : attachSource setup host source with
    | error failure =>
      cases failure with
      | error text => exact same.refuse _ _
      | panic => exact same.panicked
    | ok repo =>
      have bound : repo.source = source := (attachSource_ok opened).1
      simp only [bound, ne_eq, not_true_eq_false, if_false]
      exact ⟨.refl repo, same.poisoned, .some (.refl repo)⟩
  · rw [bindFirst_bound left, bindFirst_bound right, repos.source]
    split
    · exact same.refuse _ _
    · exact ⟨repos, same⟩

theorem finishMount_same (same : Same s t) (repos : SameRepo a b) (refName : String)
    (path : PathBuf) (allowOther : Bool) (rootTree : Attempt ObjectId) :
    SameAnswer (finishMount host refName path allowOther a rootTree s)
      (finishMount host refName path allowOther b rootTree t) := by
  unfold finishMount
  rw [repos.gitDir]
  cases startSession host b.gitDir refName path allowOther with
  | error failure =>
    cases failure with
    | error text => exact same.taken.refuse _ _
    | panic => exact same.taken.panicked
  | ok done =>
    have registered := same.taken.register repos path ⟨refName, s.nextId⟩ ⟨refName, t.nextId⟩
    simp only [DaemonState.nextProjectionId] at registered ⊢
    split
    · exact registered.panicked
    · exact ⟨rfl, registered⟩

theorem mountOn_same (same : Same s t) (repos : SameRepo a b) (refName : String)
    (path : PathBuf) (noDotgit allowOther : Bool) :
    SameAnswer (mountOn host refName path noDotgit allowOther a s)
      (mountOn host refName path noDotgit allowOther b t) := by
  unfold mountOn
  rw [repos.gitDir]
  by_cases held : path ∈ a.mounts
  · rw [if_pos held, if_pos ((repos.mem path).mp held)]
    exact same.refuse _ _
  · rw [if_neg held, if_neg fun there => held ((repos.mem path).mpr there)]
    cases buildOverlay host noDotgit refName b.gitDir with
    | error failure =>
      cases failure with
      | error text => exact same.refuse _ _
      | panic => exact same.panicked
    | ok done =>
      dsimp only
      split
      · exact same.panicked
      · exact finishMount_same same repos _ _ _ _

theorem handleMount_same (same : Same s t) (source refName : String) (mountpoint : PathBuf)
    (noDotgit allowOther : Bool) :
    SameAnswer (handleMount setup host source refName mountpoint noDotgit allowOther s)
      (handleMount setup host source refName mountpoint noDotgit allowOther t) := by
  unfold handleMount
  cases host.canonicalize mountpoint with
  | error e => exact same.refuse _ _
  | ok path =>
    simp only [same.poisoned]
    split
    · exact same.refuse _ _
    · have bound := bindFirst_same setup host same source (mountMismatch source)
      cases left : bindFirst setup host source (mountMismatch source) s <;>
        cases right : bindFirst setup host source (mountMismatch source) t <;>
        rw [left, right] at bound
      case error.error => exact bound
      case ok.ok => exact mountOn_same bound.2 bound.1 _ _ _ _
      all_goals exact bound.elim

theorem handleAttach_same (same : Same s t) (source : String) :
    SameAnswer (handleAttach setup host source s) (handleAttach setup host source t) := by
  unfold handleAttach
  simp only [same.poisoned]
  split
  · exact same.refuse _ _
  · have bound := bindFirst_same setup host same source (attachMismatch source)
    cases left : bindFirst setup host source (attachMismatch source) s <;>
      cases right : bindFirst setup host source (attachMismatch source) t <;>
      rw [left, right] at bound
    case error.error => exact bound
    case ok.ok => exact ⟨congrArg (fun dir => some (Response.attached dir)) bound.1.gitDir, bound.2⟩
    all_goals exact bound.elim

theorem handleUmount_same (same : Same s t) (mountpoint : PathBuf) :
    SameAnswer (handleUmount host mountpoint s) (handleUmount host mountpoint t) := by
  unfold handleUmount
  cases host.canonicalize mountpoint with
  | error e => exact same.refuse _ _
  | ok path =>
    simp only [same.poisoned]
    split
    · exact same.refuse _ _
    · obtain ⟨left, right⟩ | ⟨a, b, left, right, repos⟩ := same.cases
      · simp only [left, right]
        exact same.refuse _ _
      · simp only [left, right, repos.mem]
        split
        · refine ⟨rfl, rfl, .some ⟨repos.source, repos.gitDir, repos.backend, ?_⟩⟩
          rw [AList.keys_erase, AList.keys_erase, repos.keys]
        · exact same.refuse _ _

theorem handleData_same {α : Type} (same : Same s t) (parsed : Except String α)
    (work : α → Response) : SameAnswer (handleData parsed work s) (handleData parsed work t) := by
  unfold handleData
  cases parsed with
  | error e => exact same.refuse _ _
  | ok ids =>
    simp only [same.poisoned]
    split
    · exact same.refuse _ _
    · obtain ⟨left, right⟩ | ⟨a, b, left, right, repos⟩ := same.cases
      · simp only [left, right]
        exact same.refuse _ _
      · simp only [left, right]
        exact ⟨rfl, same⟩

theorem dispatch_same (same : Same s t) (other : request ≠ .status) :
    SameAnswer (dispatch setup host request s) (dispatch setup host request t) := by
  cases request with
  | ping => exact ⟨rfl, same⟩
  | status => exact absurd rfl other
  | shutdown => exact ⟨rfl, same.poisoned, same.active⟩
  | mount source refName mountpoint noDotgit allowOther => exact handleMount_same same _ _ _ _ _
  | umount mountpoint => exact handleUmount_same same mountpoint
  | attach source => exact handleAttach_same same source
  | fetch oid => exact handleData_same same _ _
  | prefetchHeaders oids => exact handleData_same same _ _
  | fetchMany oids => exact handleData_same same _ _

theorem dispatch_same_state (same : Same s t) :
    Same (dispatch setup host request s).2 (dispatch setup host request t).2 := by
  by_cases asked : request = .status
  · subst asked
    simp only [dispatch, handleStatus, same.poisoned]
    split
    · exact same.panicked.state
    · exact same
  · exact (dispatch_same same asked).state

/- Refusals. -/

/-- The `Mount` finds an unbound daemon, its source opens, and it fails after that. -/
def BindsAndFails (setup : Setup) (host : Host) (source refName : String) (mountpoint : PathBuf)
    (noDotgit allowOther : Bool) (s : DaemonState) : Prop :=
  s.poisoned = false ∧ s.active = none ∧
    ∃ path repo, host.canonicalize mountpoint = .ok path ∧
      attachSource setup host source = .ok repo ∧
      MountFails host repo refName path noDotgit allowOther

variable {source refName : String} {mountpoint : PathBuf} {noDotgit allowOther : Bool}
  {code message : String}

theorem Change.refused_state
    (change : Change setup host (.mount source refName mountpoint noDotgit allowOther) s
      (some (.err code message), t)) :
    Same s t ∧ t.active = s.active ∨
      (BindsAndFails setup host source refName mountpoint noDotgit allowOther s ∧
        ∃ repo, attachSource setup host source = .ok repo ∧ t.active = some repo ∧
          t.poisoned = false) := by
  cases change with
  | told quiet => exact .inl ⟨.refl s, rfl⟩
  | denied canonical unpoisoned opens fails reached =>
    cases opens with
    | already active same =>
      obtain rfl | rfl := reached
      · exact .inl ⟨.refl _, rfl⟩
      · exact .inl ⟨⟨rfl, (Same.refl s).active⟩, rfl⟩
    | first unbound opened =>
      refine .inr ⟨⟨unpoisoned, unbound, _, _, canonical, opened, fails⟩, _, opened, ?_⟩
      obtain rfl | rfl := reached
      · exact ⟨rfl, unpoisoned⟩
      · exact ⟨rfl, unpoisoned⟩

theorem mount_binds
    (binds : BindsAndFails setup host source refName mountpoint noDotgit allowOther s)
    {repo : ActiveRepo} (opened : attachSource setup host source = .ok repo) :
    (dispatch setup host (.mount source refName mountpoint noDotgit allowOther) s).2.active =
      some repo := by
  obtain ⟨unpoisoned, unbound, path, repo', canonical, opened', fails⟩ := binds
  cases opened.symm.trans opened'
  have free : path ∉ repo.mounts := by
    rw [(attachSource_ok opened).2]
    exact AList.notMem_empty path
  simp only [dispatch, handleMount, canonical, unpoisoned, bindFirst, unbound, opened,
    (attachSource_ok opened).1, Bool.false_eq_true, if_false, ne_eq, not_true_eq_false,
    mountOn, if_neg free]
  obtain ⟨text, failed⟩ | ⟨built, resolved, text, failed⟩ := fails
  · simp only [failed, DaemonState.refuse]
  · simp only [built, finishMount, failed, DaemonState.refuse, DaemonState.nextProjectionId]

def refusedMount (e : Exchange) : Option String :=
  match e.call.request, e.reply with
  | .mount source _ _ _ _, some (.err _ _) => some source
  | _, _ => none

theorem refusedMount_eq {e : Exchange} (refused : refusedMount e = some source) :
    ∃ refName mountpoint noDotgit allowOther code message,
      e.call.request = .mount source refName mountpoint noDotgit allowOther ∧
        e.reply = some (.err code message) := by
  unfold refusedMount at refused
  split at refused
  · rename_i asked replied
    cases Option.some.inj refused
    exact ⟨_, _, _, _, _, _, asked, replied⟩
  · cases refused

/-- What stands for an exchange in the history without refusals: for a refused `Mount` that
    bound the daemon the `Attach` to its source, for another one nothing. -/
def settle (e : Exchange) : Option Call :=
  match refusedMount e with
  | none => some e.call
  | some source =>
    if e.before.active.isNone ∧ e.after.active.isSome then some ⟨.attach source, e.call.host⟩
    else none

theorem attach_binds {repo : ActiveRepo} (unpoisoned : s.poisoned = false)
    (unbound : s.active = none) (opened : attachSource setup host source = .ok repo) :
    dispatch setup host (.attach source) s =
      (some (.attached repo.gitDir), { s with active := some repo }) := by
  simp only [dispatch, handleAttach, unpoisoned, bindFirst, unbound, opened,
    (attachSource_ok opened).1, Bool.false_eq_true, if_false, ne_eq, not_true_eq_false]

theorem settle_same {others : Log} (same : Same s others.state) (call : Call) {answer : Answer}
    (answered : dispatch setup call.host call.request s = answer) :
    ∃ next, exec (record setup) others (settle ⟨call, s, answer.1, answer.2⟩).toList = some next ∧
      Same answer.2 next.state := by
  unfold settle
  split
  · refine ⟨_, rfl, ?_⟩
    rw [← answered]
    exact dispatch_same_state same
  · rename_i source refused
    obtain ⟨refName, mountpoint, noDotgit, allowOther, code, message, asked, replied⟩ :=
      refusedMount_eq refused
    have change := dispatch_change setup call.host call.request s
    rw [answered, asked, show answer = (some (.err code message), answer.2) from
      Prod.ext replied rfl] at change
    obtain ⟨kept, active⟩ | ⟨⟨unpoisoned, unbound, -⟩, repo, opened, active, unpoisoned'⟩ :=
      change.refused_state
    · rw [if_neg (by rw [active]; cases s.active <;> simp)]
      refine ⟨others, rfl, kept.poisoned.symm.trans same.poisoned, ?_⟩
      rw [active]
      exact same.active
    · rw [if_pos (by simp [unbound, active])]
      refine ⟨_, rfl, ?_⟩
      obtain ⟨-, unbound'⟩ | ⟨a, b, bound, -⟩ := same.cases
      · have clean : others.state.poisoned = false := same.poisoned.symm.trans unpoisoned
        dsimp only
        rw [attach_binds clean unbound' opened]
        refine ⟨unpoisoned'.trans clean.symm, ?_⟩
        rw [active]
        exact .some (.refl repo)
      · exact absurd (unbound.symm.trans bound) nofun

theorem run_without_refusals {calls : List Call} {log : Log}
    (run : exec (record setup) .start calls = some log) :
    ∃ others, exec (record setup) .start (log.past.filterMap settle) = some others ∧
      Same log.state others.state := by
  have keeps : ∀ log call next, record setup log call = some next →
      (∃ others, exec (record setup) .start (log.past.filterMap settle) = some others ∧
        Same log.state others.state) →
      ∃ others, exec (record setup) .start (next.past.filterMap settle) = some others ∧
        Same next.state others.state := by
    rintro log call next taken ⟨others, run, same⟩
    cases Option.some.inj taken
    obtain ⟨later, taken, kept⟩ := settle_same same call rfl
    refine ⟨later, ?_, kept⟩
    have last : List.filterMap settle [⟨call, log.state,
        (dispatch setup call.host call.request log.state).1,
        (dispatch setup call.host call.request log.state).2⟩] =
          (settle ⟨call, log.state, (dispatch setup call.host call.request log.state).1,
            (dispatch setup call.host call.request log.state).2⟩).toList := by
      rw [List.filterMap_cons]
      cases settle _ <;> rfl
    rw [List.filterMap_append, last, exec_append, run]
    exact taken
  exact exec_keeps keeps run ⟨.start, rfl, .refl _⟩

/-- A refused `Mount` leaves the mounts alone, and the binding too unless it is the one that
    binds. In any history the refusals can be left out, the `Attach` put for the one that
    bound, and every later request but `Status` gets the answer it would have got. -/
theorem refused_mount_leaves {calls : List Call} {log : Log}
    (run : exec (record setup) .start calls = some log) :
    (∀ host source refName mountpoint noDotgit allowOther code message after,
      dispatch setup host (.mount source refName mountpoint noDotgit allowOther) log.state =
        (some (.err code message), after) →
      after.mounts = log.state.mounts ∧ after.poisoned = log.state.poisoned ∧
      (¬ BindsAndFails setup host source refName mountpoint noDotgit allowOther log.state →
        after.active = log.state.active) ∧
      (BindsAndFails setup host source refName mountpoint noDotgit allowOther log.state →
        ∃ repo, attachSource setup host source = .ok repo ∧ repo.source = source ∧
          after.active = some repo)) ∧
    ∃ others, exec (record setup) .start (log.past.filterMap settle) = some others ∧
      ∀ host request, request ≠ .status →
        (dispatch setup host request log.state).1 = (dispatch setup host request others.state).1 := by
  constructor
  · intro host source refName mountpoint noDotgit allowOther code message after answered
    have change := dispatch_change setup host
      (.mount source refName mountpoint noDotgit allowOther) log.state
    have binds : BindsAndFails setup host source refName mountpoint noDotgit allowOther log.state →
        ∃ repo, attachSource setup host source = .ok repo ∧ repo.source = source ∧
          after.active = some repo := by
      intro binds
      obtain ⟨-, -, path, repo, -, opened, -⟩ := id binds
      refine ⟨repo, opened, (attachSource_ok opened).1, ?_⟩
      have bound := mount_binds binds opened
      rwa [answered] at bound
    rw [answered] at change
    obtain ⟨kept, active⟩ | ⟨bound, repo, opened, active, unpoisoned⟩ := change.refused_state
    · exact ⟨by rw [DaemonState.mounts, active]; rfl, kept.poisoned.symm, fun _ => active, binds⟩
    · refine ⟨?_, unpoisoned.trans bound.1.symm, fun free => absurd bound free, binds⟩
      simp [DaemonState.mounts, active, bound.2.1, (attachSource_ok opened).2]
  · obtain ⟨others, other, same⟩ := run_without_refusals run
    exact ⟨others, other, fun host request asked => (dispatch_same same asked).reply⟩

end
/- A fresh daemon is asked for a branch that is not there; then another source is attached. -/

def mistypedMount : Call :=
  ⟨.mount repoPath "mian" mountPath false false, plainHost (.ok ())⟩

def otherPath : String := "/srv/other"

theorem mistyped_result :
    (exec (record plainSetup) .start [mistypedMount]).map (fun log =>
        (log.past.map Exchange.reply, log.state.binding,
          (dispatch plainSetup (plainHost (.ok ())) (.attach otherPath) log.state).1)) =
      some ([some (.err Codes.refResolveFailed
          "resolving projection commit for .git/ synthesis: ref not found: mian")],
        some (repoPath, pathOf repoPath),
        some (.err Codes.sourceMismatch ("daemon is bound to source `/srv/repo`; this Attach " ++
          "asked for `/srv/other`. V1 is one source per daemon."))) := by
  decide +kernel

theorem refused_mount_binds :
    ∃ log, exec (record plainSetup) .start [mistypedMount] = some log ∧
      (∃ code message, log.past.map Exchange.reply = [some (.err code message)]) ∧
      DaemonState.new.binding = none ∧ log.state.binding = some (repoPath, pathOf repoPath) ∧
      (dispatch plainSetup (plainHost (.ok ())) (.attach otherPath) .new).1 =
        some (.attached (pathOf otherPath)) ∧
      ∃ message, (dispatch plainSetup (plainHost (.ok ())) (.attach otherPath) log.state).1 =
        some (.err Codes.sourceMismatch message) := by
  obtain ⟨log, run, result⟩ := Option.map_eq_some_iff.mp mistyped_result
  obtain ⟨replies, rest⟩ := Prod.mk.inj result
  obtain ⟨binding, answer⟩ := Prod.mk.inj rest
  exact ⟨log, run, ⟨_, _, replies⟩, rfl, binding, by decide +kernel, _, answer⟩

theorem mistyped_mount_is_an_attach :
    ∃ log, exec (record plainSetup) .start [mistypedMount] = some log ∧
      ∃ others, exec (record plainSetup) .start (log.past.filterMap settle) = some others ∧
        (dispatch plainSetup (plainHost (.ok ())) (.attach otherPath) log.state).1 =
          (dispatch plainSetup (plainHost (.ok ())) (.attach otherPath) others.state).1 := by
  obtain ⟨log, run, -⟩ := Option.map_eq_some_iff.mp mistyped_result
  obtain ⟨others, without, alike⟩ := (refused_mount_leaves run).2
  exact ⟨log, run, others, without, alike _ _ (by decide)⟩

end ProjgitRegistry

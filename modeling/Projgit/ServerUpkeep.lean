import Projgit.ServerShutdown

/-!
What a supervisor can rely on: our pid is in its file only while the daemon accepts, is on its
way out or has panicked, and maintenance runs on the bound repository only, with a full interval
of sleep before every run.
-/
namespace ProjgitServer
open ProjgitRegistry ProjgitProtocol LabelledRuns JsonText Utf8Bytes

/-! ### Files -/

def MainThread.ready : MainThread → Bool
  | .spawnMaintenance | .accept | .check _ | .spawn _ | .join | .dropListener | .removeSocket
  | .removePid | .returned true | .panicked => true
  | _ => false

def MainThread.preparing : MainThread → Bool
  | .clear | .bind | .chmod | .createPid => true
  | _ => false

structure Marked (config : Config) (s : Server) : Prop where
  written : s.pidFile = .ours → config.pidFile = true ∧ s.main.ready = true
  asked : s.main = .writePid → config.pidFile = true
  failed : s.main.starting = true → s.daemon = .new

/-- What is at the two paths while no other process touches them; `found` is what the start has
    found at the pid path. -/
structure Untouched (config : Config) (found : FileAt) (s : Server) : Prop where
  socket : s.listening = true ∨ s.main = .panicked → s.socketFile = .ours
  unopened : s.main.preparing = true ∨ config.pidFile = false → s.pidFile = found
  torn : s.main = .writePid → config.pidFile = true ∧ s.pidFile = .torn
  aborted : s.main = .abandon ∨ s.main = .returned false →
    s.pidFile = found ∨ config.pidFile = true ∧ s.pidFile = .torn
  marked : config.pidFile = true → s.main.ready = true → s.main ≠ .returned true →
    s.pidFile = .ours

def Action.isForeign : Action → Bool
  | .takeSocket _ | .takePid _ => true
  | _ => false

/-- Whether the step is a system call of the main thread that fails. -/
def Action.fails : Action → Bool
  | .main false => true
  | _ => false

section
variable {config : Config} {s t : Server} {ok : Bool} {found : FileAt}

theorem settle_files (conn : Option ConnId) (handler : Handler) :
    (s.settle conn handler).socketFile = s.socketFile ∧
      (s.settle conn handler).pidFile = s.pidFile := by
  cases conn <;> exact ⟨rfl, rfl⟩

theorem SetsUp.marked (moved : SetsUp config ok s t) (marked : Marked config s) :
    Marked config t := by
  obtain ⟨written, asked, failed⟩ := marked
  have new : t.daemon = .new := by
    cases moved <;> exact failed (by simp [*, MainThread.starting])
  refine ⟨?_, ?_, fun _ => new⟩
  · cases moved with
    | pidWritten at_ => exact fun _ => ⟨asked at_, rfl⟩
    | _ => simp_all [MainThread.ready]
  · cases moved <;> simp_all

theorem Serves.marked (moved : Serves config ok s t) (marked : Marked config s) :
    Marked config t := by
  obtain ⟨written, asked, failed⟩ := marked
  have going : t.main.starting = false := by cases moved <;> rfl
  refine ⟨?_, fun writing => ?_, fun starting => ?_⟩
  · cases moved with
    | pidRemoved at_ =>
      intro there
      dsimp only at there
      split at there
      · cases there
      · exact ⟨(written there).1, rfl⟩
    | _ => simp_all [MainThread.ready, settle_files]
  · rw [writing] at going
    cases going
  · rw [going] at starting
    cases starting

theorem step_daemon {a : Action} (moved : step config s a = some t) (other : a.isMain = false)
    (sound : Sound config s) (starting : s.main.starting = true) : t.daemon = s.daemon := by
  cases step_cases moved with
  | setsUp moved => cases other
  | serves moved => cases other
  | @dispatched c host request handler found replies =>
    exact absurd (taken_of_handler found (by simp) (by simp)) ((sound.idle starting).2.2 c)
  | _ => rfl

theorem step_files {a : Action} (moved : step config s a = some t) (other : a.isMain = false)
    (ours : a.isForeign = false) :
    t.listening = s.listening ∧ t.socketFile = s.socketFile ∧ t.pidFile = s.pidFile := by
  cases step_cases moved with
  | setsUp moved => cases other
  | serves moved => cases other
  | socketTaken => cases ours
  | pidTaken => cases ours
  | _ => exact ⟨rfl, rfl, rfl⟩

theorem step_marked {a : Action} (moved : step config s a = some t) (sound : Sound config s)
    (marked : Marked config s) : Marked config t := by
  cases kind : a.isMain with
  | true =>
    cases step_cases moved with
    | setsUp moved => exact moved.marked marked
    | serves moved => exact moved.marked marked
    | _ => cases kind
  | false =>
    have main := step_main moved kind
    refine ⟨?_, by rw [main]; exact marked.asked, fun starting => ?_⟩
    · cases own : a.isForeign with
      | false =>
        rw [(step_files moved kind own).2.2, main]
        exact marked.written
      | true =>
        cases step_cases moved with
        | socketTaken => exact marked.written
        | @pidTaken leaves => cases leaves <;> simp [leftOver]
        | _ => cases own
    · rw [main] at starting
      rw [step_daemon moved kind sound starting, marked.failed starting]

theorem SetsUp.untouched (moved : SetsUp config ok s t) (sound : Sound config s)
    (kept : Untouched config found s) : Untouched config found t := by
  obtain ⟨socket, unopened, torn, aborted, marked⟩ := kept
  have bound := sound.listening
  constructor <;> cases moved <;> simp_all [MainThread.listens, MainThread.preparing,
    MainThread.ready]

theorem Serves.untouched (moved : Serves config ok s t) (sound : Sound config s)
    (kept : Untouched config found s) : Untouched config found t := by
  obtain ⟨socket, unopened, torn, aborted, marked⟩ := kept
  have bound := sound.listening
  constructor <;> cases moved <;> simp_all [MainThread.listens, MainThread.preparing,
    MainThread.ready, settle_files]

theorem step_untouched {a : Action} (moved : step config s a = some t) (own : a.isForeign = false)
    (sound : Sound config s) (kept : Untouched config found s) : Untouched config found t := by
  cases kind : a.isMain with
  | true =>
    cases step_cases moved with
    | setsUp moved => exact moved.untouched sound kept
    | serves moved => exact moved.untouched sound kept
    | _ => cases kind
  | false =>
    have main := step_main moved kind
    obtain ⟨listening, socketFile, pidFile⟩ := step_files moved kind own
    obtain ⟨socket, unopened, torn, aborted, marked⟩ := kept
    constructor <;> simp only [main, listening, socketFile, pidFile] <;> assumption

structure Cleared (config : Config) (s : Server) : Prop where
  socket : s.main = .removePid ∨ s.main = .returned true → s.socketFile = .absent
  pid : s.main = .returned true → config.pidFile = true → s.pidFile = .absent

theorem step_cleared {a : Action} (moved : step config s a = some t) (own : a.isForeign = false)
    (works : a.fails = false) (cleared : Cleared config s) : Cleared config t := by
  obtain ⟨socket, pid⟩ := cleared
  cases kind : a.isMain with
  | true =>
    cases a with
    | main ok =>
      cases ok with
      | false => cases works
      | true =>
        rcases mainStep_cases moved with setsUp | serves
        · constructor <;> cases setsUp <;> simp_all
        · constructor <;> cases serves <;> simp_all [unlinkIf]
    | _ => cases kind
  | false =>
    have main := step_main moved kind
    obtain ⟨-, socketFile, pidFile⟩ := step_files moved kind own
    constructor
    · rw [main, socketFile]
      exact socket
    · rw [main, pidFile]
      exact pid

theorem run_marked {staleSocket stalePid : Bool} {acts : List Action}
    (run : exec (step config) (.init staleSocket stalePid) acts = some s) :
    Sound config s ∧ Marked config s := by
  have keeps : ∀ u a v, step config u a = some v →
      Sound config u ∧ Marked config u → Sound config v ∧ Marked config v := by
    intro u a v moved both
    exact ⟨step_sound moved both.1, step_marked moved both.1 both.2⟩
  refine exec_keeps keeps run ⟨init_sound config staleSocket stalePid, ?_, ?_, fun _ => rfl⟩
  · cases stalePid <;> simp [Server.init, leftOver]
  · simp [Server.init]

theorem run_untouched {staleSocket stalePid : Bool} {acts : List Action}
    (run : exec (step config) (.init staleSocket stalePid) acts = some s)
    (own : ∀ a ∈ acts, a.isForeign = false) :
    Untouched config (leftOver stalePid) s ∧
      ((∀ a ∈ acts, a.fails = false) → Cleared config s) := by
  have keeps : ∀ u a v, step config u a = some v → a.isForeign = false →
      Sound config u ∧ Untouched config (leftOver stalePid) u →
      Sound config v ∧ Untouched config (leftOver stalePid) v := by
    intro u a v moved own both
    exact ⟨step_sound moved both.1, step_untouched moved own both.1 both.2⟩
  have clears : ∀ u a v, step config u a = some v → a.isForeign = false ∧ a.fails = false →
      Cleared config u → Cleared config v := by
    intro u a v moved allowed cleared
    exact step_cleared moved allowed.1 allowed.2 cleared
  refine ⟨(exec_keeps_meeting keeps run (meets_of_forall own _)
    ⟨init_sound config staleSocket stalePid, ?_⟩).2, fun works => ?_⟩
  · constructor <;> simp [Server.init, MainThread.ready]
  · have both : ∀ a ∈ acts, a.isForeign = false ∧ a.fails = false :=
      fun a member => ⟨own a member, works a member⟩
    exact exec_keeps_meeting clears run (meets_of_forall both _)
      (by constructor <;> simp [Server.init])

/-- In every state of every run: our pid in its file means that the daemon listens, has been told
    to stop or has panicked; a start that failed has served nobody and has not written the pid.
    While no other process touches the two files, moreover: a daemon that accepts has its socket
    at its path and its pid in its file; a failed start leaves the pid file as it was, or torn; a
    panic leaves both files behind; and a run without failing calls leaves neither. -/
theorem files_tell_the_truth {staleSocket stalePid : Bool} {acts : List Action}
    (run : exec (step config) (.init staleSocket stalePid) acts = some s) :
    (s.pidFile = .ours → s.listening = true ∨ s.stopping = true ∨ s.main = .panicked) ∧
    (s.main = .returned false →
      s.listening = false ∧ s.pidFile ≠ .ours ∧ s.daemon = .new ∧ ∀ c, ¬ Taken s c) ∧
    ((∀ a ∈ acts, a.isForeign = false) →
      (s.main = .accept → s.reachable = true ∧ (config.pidFile = true → s.pidFile = .ours)) ∧
      (s.main = .returned false →
        s.pidFile = leftOver stalePid ∨ config.pidFile = true ∧ s.pidFile = .torn) ∧
      (s.main = .panicked → s.socketFile = .ours ∧ (config.pidFile = true → s.pidFile = .ours)) ∧
      (s.main = .returned true → (∀ a ∈ acts, a.fails = false) →
        s.socketFile = .absent ∧ (config.pidFile = true → s.pidFile = .absent))) := by
  obtain ⟨sound, written, asked, failed⟩ := run_marked run
  have bound := sound.listening
  refine ⟨fun there => ?_, fun ended => ?_, fun own => ⟨fun accepting => ?_, fun ended => ?_,
    fun fell => ?_, fun ended works => ?_⟩⟩
  · obtain ⟨-, ready⟩ := written there
    cases leaving : s.main.leaving with
    | true => exact Or.inr (Or.inl (sound.asked leaving))
    | false =>
      cases at_ : s.main with
      | panicked => exact Or.inr (Or.inr rfl)
      | returned ok => cases ok <;> simp_all [MainThread.ready, MainThread.leaving]
      | _ => simp_all [MainThread.ready, MainThread.leaving, MainThread.listens]
  · obtain ⟨-, -, untaken⟩ := sound.idle (by rw [ended]; rfl)
    rw [ended] at bound
    refine ⟨bound, fun there => ?_, failed (by rw [ended]; rfl), untaken⟩
    rw [ended] at written
    cases (written there).2
  · have kept := (run_untouched run own).1
    rw [accepting] at bound
    have socket := kept.socket (Or.inl bound)
    refine ⟨by simp [Server.reachable, socket, bound, MainThread.listens], fun asked => ?_⟩
    exact kept.marked asked (by rw [accepting]; rfl) (by simp [accepting])
  · exact (run_untouched run own).1.aborted (Or.inr ended)
  · have kept := (run_untouched run own).1
    refine ⟨kept.socket (Or.inr fell), fun asked => ?_⟩
    exact kept.marked asked (by rw [fell]; rfl) (by simp [fell])
  · have cleared := (run_untouched run own).2 works
    exact ⟨cleared.socket (Or.inr ended), cleared.pid ended⟩

/-- The disk is full when the pid is written. -/
def fullDisk : List Action := List.replicate 4 (.main true) ++ [.main false, .main true]

theorem fullDisk_result :
    (exec (step smallConfig) (.init true false) fullDisk).map (fun s => (s.main, s.pidFile)) =
      some (.returned false, .torn) := by
  decide +kernel

/-- A start and a shutdown on which nothing fails, over a stale socket, and a start that fails. -/
theorem clean_run_clears :
    (∃ s, exec (step smallConfig) (.init true false) (askToStop ++ wakeAndLeave) = some s ∧
      s.main = .returned true ∧ s.socketFile = .absent ∧ s.pidFile = .absent) ∧
    ∃ s, exec (step smallConfig) (.init true false) fullDisk = some s ∧
      s.pidFile = .torn ∧ s.listening = false ∧ s.daemon = .new := by
  constructor
  · obtain ⟨s, run, ended⟩ := Option.map_eq_some_iff.mp askToStop_result.2.1
    have returned := (Prod.mk.inj ended).1
    have own : ∀ a ∈ askToStop ++ wakeAndLeave, a.isForeign = false := by decide +kernel
    obtain ⟨-, -, -, clears⟩ := (files_tell_the_truth run).2.2 own
    obtain ⟨socket, pid⟩ := clears returned (by decide +kernel)
    exact ⟨s, run, returned, socket, pid rfl⟩
  · obtain ⟨s, run, ended⟩ := Option.map_eq_some_iff.mp fullDisk_result
    obtain ⟨returned, torn⟩ := Prod.mk.inj ended
    obtain ⟨deaf, -, new, -⟩ := (files_tell_the_truth run).2.1 returned
    exact ⟨s, run, torn, deaf, new⟩

/-! ### Maintenance -/

/-- One slice of sleep, a quarter of a second. -/
def naps (config : Config) (s : Server) : Action → Option Unit
  | .maintain =>
    match s.maintenance, config.maintenance with
    | some (.sleeping slept), some secs =>
      if slept < 1000 * secs ∧ s.stopping = false then some () else none
    | _, _ => none
  | _ => none

def Maintenance.gitDir : Maintenance → Option PathBuf
  | .running gitDir => some gitDir
  | _ => none

/-- The directory on which a step of the maintenance thread starts maintenance. -/
def tends (config : Config) (s : Server) : Action → Option PathBuf
  | .maintain =>
    (maintainStep config s).bind fun t => t.maintenance.bind Maintenance.gitDir
  | _ => none

/-- The slices slept since the last run. -/
def napped (secs : Nat) : Option Maintenance → Nat
  | some (.sleeping slept) => slept / 250
  | some .due | some .locking => 4 * secs
  | _ => 0

theorem tends_maintain (moved : maintainStep config s = some t) :
    tends config s .maintain = t.maintenance.bind Maintenance.gitDir := by
  simp [tends, moved]

theorem maintain_paced {secs : Nat} (every : config.maintenance = some secs)
    (moved : maintainStep config s = some t) :
    4 * secs * (tends config s .maintain).toList.length + napped secs t.maintenance ≤
      (naps config s .maintain).toList.length + napped secs s.maintenance := by
  rw [tends_maintain moved]
  unfold maintainStep at moved
  split at moved
  · rename_i slept secs' at_ every'
    cases every.symm.trans every'
    cases moved
    by_cases more : slept < 1000 * secs
    · cases flag : s.stopping with
      | true => simp [naps, at_, every, more, flag, napped, Maintenance.gitDir]
      | false =>
        simp only [naps, at_, every, more, flag, napped, Maintenance.gitDir, if_true,
          Bool.false_eq_true, if_false, Option.bind_some, Option.toList_none, List.length_nil,
          Nat.mul_zero, and_self, Option.toList_some, List.length_singleton]
        omega
    · simp only [naps, at_, every, more, napped, Maintenance.gitDir, if_false, false_and,
        Option.bind_some, Option.toList_none, List.length_nil, Nat.mul_zero]
      omega
  · rename_i at_
    cases moved
    cases s.stopping <;> simp [naps, at_, napped, Maintenance.gitDir]
  · rename_i at_
    cases moved
    cases locked : s.daemon.poisoned <;> cases bound : s.daemon.active <;>
      simp [naps, at_, napped, Maintenance.gitDir]
  · rename_i dir at_
    cases moved
    simp [naps, at_, napped, Maintenance.gitDir]
  · cases moved

theorem step_paced {secs : Nat} (every : config.maintenance = some secs) {a : Action}
    (moved : step config s a = some t) :
    4 * secs * (tends config s a).toList.length + napped secs t.maintenance ≤
      (naps config s a).toList.length + napped secs s.maintenance := by
  cases step_cases moved with
  | setsUp moved =>
    have same : napped secs t.maintenance ≤ napped secs s.maintenance := by
      cases moved with
      | ready at_ every => simp [napped]
      | _ => exact Nat.le_refl _
    simpa [tends, naps] using same
  | serves moved =>
    have same : t.maintenance = s.maintenance := by cases moved <;> simp
    simp [tends, naps, same]
  | maintained moved started => exact maintain_paced every moved
  | _ => simp [tends, naps, Server.enqueue]

theorem step_binding {a : Action} (moved : step config s a = some t) {bound : String × PathBuf}
    (binding : s.daemon.binding = some bound) : t.daemon.binding = some bound := by
  cases step_cases moved with
  | setsUp moved => cases moved <;> exact binding
  | serves moved => cases moved <;> simpa using binding
  | @dispatched c host request handler found replies =>
    exact (dispatch_change config.setup host request s.daemon).keeps_binding binding
  | _ => exact binding

theorem tends_bound {a : Action} {dir : PathBuf} (shown : tends config s a = some dir) :
    ∃ source, s.daemon.binding = some (source, dir) := by
  cases a with
  | maintain =>
    obtain ⟨t, moved, running⟩ := Option.bind_eq_some_iff.mp shown
    unfold maintainStep at moved
    split at moved
    · cases moved
      dsimp only [Option.bind_some] at running
      repeat' split at running
      all_goals cases running
    · cases moved
      dsimp only [Option.bind_some] at running
      split at running <;> cases running
    · cases moved
      dsimp only [Option.bind_some] at running
      split at running
      · rename_i repo _ active
        cases running
        exact ⟨repo.source, by simp [DaemonState.binding, active]⟩
      · cases running
    · cases moved
      cases running
    · cases moved
  | _ => cases shown

/-- In every run: maintenance is started on the directory of the bound source only, and each
    time after a whole interval of sleep since the last. -/
theorem maintenance_is_paced {secs : Nat} (every : config.maintenance = some secs)
    {staleSocket stalePid : Bool} {acts : List Action}
    (run : exec (step config) (.init staleSocket stalePid) acts = some s) :
    4 * secs * (seen (step config) (tends config) (.init staleSocket stalePid) acts).length ≤
      (seen (step config) (naps config) (.init staleSocket stalePid) acts).length ∧
    ∀ dir ∈ seen (step config) (tends config) (.init staleSocket stalePid) acts,
      ∃ source, s.daemon.binding = some (source, dir) := by
  constructor
  · have paid := seen_pays (tends config) (naps config) (fun s => napped secs s.maintenance)
      (4 * secs) (fun _ _ _ moved sound => step_sound moved sound)
      (fun _ _ _ moved _ => step_paced every moved) run
      (init_sound config staleSocket stalePid)
    exact Nat.le_trans (Nat.le_add_right _ _) paid
  · intro dir tended
    obtain ⟨before, a, after, mid, rfl, first, shown⟩ := mem_seen.mp tended
    obtain ⟨mid', first', rest⟩ := exec_append_some run
    cases first.symm.trans first'
    obtain ⟨source, binding⟩ := tends_bound shown
    have keeps : ∀ u a v, step config u a = some v →
        u.daemon.binding = some (source, dir) → v.daemon.binding = some (source, dir) :=
      fun _ _ _ moved binding => step_binding moved binding
    exact ⟨source, exec_keeps keeps rest binding⟩

end

def attachParse (body : Bytes) : Option Json :=
  (encodeRequest (.attach repoPath)).bind fun j => if body = j.bytes then some j else none

def attachFrame : Bytes := (writeMessage vecWriter requestCodec (.attach repoPath) []).2

def everySecond : Config := ⟨false, some 1, none, 8, plainSetup, "", attachParse⟩

def attachAndWait : List Action :=
  List.replicate 5 (.main true) ++ [.connect ⟨attachFrame, none⟩, .main true, .main true,
    .main true, .receive 0, .dispatch 0 (plainHost (.ok ()))] ++ List.replicate 7 .maintain

theorem attachAndWait_result :
    ((exec (step everySecond) (.init false false) attachAndWait).map fun s => s.maintenance) =
      some (some (.running (pathOf repoPath))) ∧
    seen (step everySecond) (tends everySecond) (.init false false) attachAndWait =
      [pathOf repoPath] ∧
    (seen (step everySecond) (naps everySecond) (.init false false) attachAndWait).length = 4 := by
  decide +kernel

theorem second_of_sleep_before_maintenance :
    ∃ s, exec (step everySecond) (.init false false) attachAndWait = some s ∧
      s.maintenance = some (.running (pathOf repoPath)) ∧
      ∃ source, s.daemon.binding = some (source, pathOf repoPath) := by
  obtain ⟨result, tended, -⟩ := attachAndWait_result
  obtain ⟨s, run, running⟩ := Option.map_eq_some_iff.mp result
  refine ⟨s, run, running, ?_⟩
  have every : everySecond.maintenance = some 1 := rfl
  exact (maintenance_is_paced every run).2 _ (by rw [tended]; exact List.mem_singleton_self _)

end ProjgitServer

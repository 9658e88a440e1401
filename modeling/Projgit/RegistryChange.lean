import Projgit.Registry

/-!
What a request can do to the registry. `Change` says it once for all nine requests; that the
binding stays and that the ids go up one by one is read off its cases.
-/
namespace ProjgitRegistry
open Utf8Bytes ProjgitStore ProjgitProtocol

def sourceOf : Request → Option String
  | .mount source _ _ _ _ => some source
  | .attach source => some source
  | _ => none

def DaemonState.binding (s : DaemonState) : Option (String × PathBuf) :=
  s.active.map fun repo => (repo.source, repo.gitDir)

def DaemonState.mounts (s : DaemonState) : Mounts := (s.active.map ActiveRepo.mounts).getD ∅

def mountIds (mounts : Mounts) : List UInt64 := mounts.entries.map fun entry => entry.2.projectionId

/- What a request can do. -/
/-- `source` is bound after the head of a `Mount` or an `Attach`, to `repo`. -/
inductive Opens (setup : Setup) (host : Host) (source : String) :
    DaemonState → DaemonState → ActiveRepo → Prop
  | already {s repo} (active : s.active = some repo) (same : repo.source = source) :
      Opens setup host source s s repo
  | first {s repo} (unbound : s.active = none) (opened : attachSource setup host source = .ok repo) :
      Opens setup host source s { s with active := some repo } repo

/-- The states that a panic can leave behind, the poison apart. -/
inductive Stage (setup : Setup) (host : Host) (source : String) : DaemonState → DaemonState → Prop
  | start {s} : Stage setup host source s s
  | opened {s u repo} (opens : Opens setup host source s u repo) : Stage setup host source s u
  | taken {s u repo} (opens : Opens setup host source s u repo) :
      Stage setup host source s u.nextProjectionId.2
  | registered {s u repo path refName} (opens : Opens setup host source s u repo)
      (free : path ∉ repo.mounts) :
      Stage setup host source s (u.nextProjectionId.2.register repo path ⟨refName, u.nextId⟩)

/-- Replies that tell nothing of the registry but what `Status` reports. -/
def Quiet : Request → Response → Prop
  | .mount .., r | .umount _, r | .attach _, r => ∃ code message, r = .err code message
  | _, r => ∀ gitDir, r ≠ .attached gitDir

def MountFails (host : Host) (repo : ActiveRepo) (refName : String) (path : PathBuf)
    (noDotgit allowOther : Bool) : Prop :=
  (∃ text, buildOverlay host noDotgit refName repo.gitDir = .error (.error text)) ∨
    (buildOverlay host noDotgit refName repo.gitDir = .ok () ∧
      host.rootTree repo.gitDir refName ≠ .error .panic ∧
      ∃ text, startSession host repo.gitDir refName path allowOther = .error (.error text))

inductive Change (setup : Setup) (host : Host) : Request → DaemonState → Answer → Prop
  | told {request s r} (quiet : Quiet request r) : Change setup host request s (some r, s)
  | denied {source refName mountpoint noDotgit allowOther s t u repo path code message}
      (canonical : host.canonicalize mountpoint = .ok path) (unpoisoned : s.poisoned = false)
      (opens : Opens setup host source s u repo)
      (fails : MountFails host repo refName path noDotgit allowOther)
      (reached : t = u ∨ t = u.nextProjectionId.2) :
      Change setup host (.mount source refName mountpoint noDotgit allowOther) s
        (some (.err code message), t)
  | mounted {source refName mountpoint noDotgit allowOther s u repo path}
      (canonical : host.canonicalize mountpoint = .ok path) (unpoisoned : s.poisoned = false)
      (opens : Opens setup host source s u repo) (free : path ∉ repo.mounts) :
      Change setup host (.mount source refName mountpoint noDotgit allowOther) s
        (some .ok, u.nextProjectionId.2.register repo path ⟨refName, u.nextId⟩)
  | attached {source s u repo} (unpoisoned : s.poisoned = false)
      (opens : Opens setup host source s u repo) :
      Change setup host (.attach source) s (some (.attached repo.gitDir), u)
  | removed {mountpoint s repo path} (canonical : host.canonicalize mountpoint = .ok path)
      (unpoisoned : s.poisoned = false) (active : s.active = some repo)
      (held : path ∈ repo.mounts) :
      Change setup host (.umount mountpoint) s
        (some .ok, { s with active := some { repo with mounts := repo.mounts.erase path } })
  | crashed {request source s t} (named : sourceOf request = some source)
      (stage : Stage setup host source s t) : Change setup host request s t.panicked
  | blocked {s} (poisoned : s.poisoned = true) : Change setup host .status s s.panicked
  | stopped {s} : Change setup host .shutdown s (some .ok, { s with shutdownRequested := true })

section
variable {setup : Setup} {host : Host} {request : Request} {s t u : DaemonState} {repo : ActiveRepo}
  {source : String}

theorem bind_ok {ε α β : Type} {x : Except ε α} {f : α → Except ε β} {b : β}
    (done : x >>= f = .ok b) : ∃ a, x = .ok a ∧ f a = .ok b := by
  cases x with
  | error e => cases done
  | ok a => exact ⟨a, rfl, done⟩

theorem attachSource_ok (opened : attachSource setup host source = .ok repo) :
    repo.source = source ∧ repo.mounts = ∅ := by
  unfold attachSource at opened
  split at opened
  · obtain ⟨cacheDir, -, opened⟩ := bind_ok opened
    obtain ⟨-, -, opened⟩ := bind_ok opened
    obtain ⟨-, -, opened⟩ := bind_ok opened
    obtain ⟨fetcher, -, opened⟩ := bind_ok opened
    cases opened
    exact ⟨rfl, rfl⟩
  · obtain ⟨-, -, opened⟩ := bind_ok opened
    obtain ⟨-, -, opened⟩ := bind_ok opened
    cases opened
    exact ⟨rfl, rfl⟩

theorem bindFirst_bound (active : s.active = some repo) (source : String)
    (mismatch : String → String) : bindFirst setup host source mismatch s =
      if repo.source ≠ source then .error (s.refuse Codes.sourceMismatch (mismatch repo.source))
      else .ok (repo, s) := by
  simp only [bindFirst, active]

theorem bindFirst_ok {mismatch : String → String}
    (bound : bindFirst setup host source mismatch s = .ok (repo, t)) :
    Opens setup host source s t repo := by
  unfold bindFirst at bound
  split at bound
  · rename_i repo' active
    split at bound
    · cases bound
    · rename_i same
      cases bound
      exact .already active (not_not.mp same)
  · rename_i unbound
    split at bound
    · cases bound
    · cases bound
    · rename_i repo' opened
      split at bound
      · cases bound
      · cases bound
        exact .first unbound opened

theorem bindFirst_error {mismatch : String → String} {answer : Answer}
    (bound : bindFirst setup host source mismatch s = .error answer) :
    answer = s.panicked ∨ ∃ code message, answer = s.refuse code message := by
  unfold bindFirst at bound
  split at bound
  · split at bound
    · cases bound
      exact .inr ⟨_, _, rfl⟩
    · cases bound
  · split at bound
    · cases bound
      exact .inr ⟨_, _, rfl⟩
    · cases bound
      exact .inl rfl
    · rename_i repo' opened
      split at bound
      · rename_i differs
        exact absurd (attachSource_ok opened).1 differs
      · cases bound

theorem handleData_change {α : Type} {parsed : Except String α} {work : α → Response}
    (quiet : ∀ a, Quiet request (work a))
    (errs : ∀ code message, Quiet request (.err code message)) :
    Change setup host request s (handleData parsed work s) := by
  unfold handleData
  split
  · exact .told (errs _ _)
  · split
    · exact .told (errs _ _)
    · split
      · exact .told (errs _ _)
      · exact .told (quiet _)

theorem mountOn_change {refName : String} {mountpoint path : PathBuf} {noDotgit allowOther : Bool}
    (canonical : host.canonicalize mountpoint = .ok path) (unpoisoned : s.poisoned = false)
    (opens : Opens setup host source s u repo) :
    Change setup host (.mount source refName mountpoint noDotgit allowOther) s
      (mountOn host refName path noDotgit allowOther repo u) := by
  unfold mountOn
  split
  · rename_i busy
    cases opens with
    | already active same => exact .told ⟨_, _, rfl⟩
    | first unbound opened =>
      rw [(attachSource_ok opened).2] at busy
      exact absurd busy (AList.notMem_empty path)
  · rename_i free
    split
    · rename_i text failed
      exact .denied canonical unpoisoned opens (.inl ⟨text, failed⟩) (.inl rfl)
    · exact .crashed rfl (.opened opens)
    · rename_i built
      split
      · exact .crashed rfl (.opened opens)
      · rename_i resolved
        simp only [finishMount, DaemonState.nextProjectionId]
        split
        · rename_i text failed
          exact .denied canonical unpoisoned opens
            (.inr ⟨built, resolved, text, failed⟩) (.inr rfl)
        · exact .crashed rfl (.taken opens)
        · split
          · exact .crashed rfl (.registered opens free)
          · exact .mounted canonical unpoisoned opens free

theorem dispatch_change (setup : Setup) (host : Host) (request : Request) (s : DaemonState) :
    Change setup host request s (dispatch setup host request s) := by
  cases request with
  | ping => exact .told nofun
  | status =>
    simp only [dispatch, handleStatus]
    split
    · exact .blocked ‹_›
    · exact .told nofun
  | shutdown => exact .stopped
  | mount source refName mountpoint noDotgit allowOther =>
    simp only [dispatch, handleMount]
    split
    · exact .told ⟨_, _, rfl⟩
    · rename_i path canonical
      split
      · exact .told ⟨_, _, rfl⟩
      · rename_i unpoisoned
        split
        · rename_i answer bound
          obtain rfl | ⟨code, message, rfl⟩ := bindFirst_error bound
          · exact .crashed rfl .start
          · exact .told ⟨_, _, rfl⟩
        · rename_i repo u bound
          exact mountOn_change canonical (Bool.not_eq_true _ ▸ unpoisoned) (bindFirst_ok bound)
  | umount mountpoint =>
    simp only [dispatch, handleUmount]
    split
    · exact .told ⟨_, _, rfl⟩
    · rename_i path canonical
      split
      · exact .told ⟨_, _, rfl⟩
      · rename_i unpoisoned
        split
        · exact .told ⟨_, _, rfl⟩
        · rename_i repo active
          split
          · exact .removed canonical (Bool.not_eq_true _ ▸ unpoisoned) active ‹_›
          · exact .told ⟨_, _, rfl⟩
  | attach source =>
    simp only [dispatch, handleAttach]
    split
    · exact .told ⟨_, _, rfl⟩
    · rename_i unpoisoned
      split
      · rename_i answer bound
        obtain rfl | ⟨code, message, rfl⟩ := bindFirst_error bound
        · exact .crashed rfl .start
        · exact .told ⟨_, _, rfl⟩
      · rename_i repo u bound
        exact .attached (Bool.not_eq_true _ ▸ unpoisoned) (bindFirst_ok bound)
  | fetch oid =>
    refine handleData_change (fun a => ?_) (fun _ _ => nofun)
    split <;> nofun
  | prefetchHeaders oids => exact handleData_change (fun _ => nofun) fun _ _ => nofun
  | fetchMany oids => exact handleData_change (fun _ => nofun) fun _ _ => nofun

/- The binding. -/

theorem Opens.active (opens : Opens setup host source s u repo) : u.active = some repo := by
  cases opens with
  | already active same => exact active
  | first unbound opened => rfl

theorem Opens.source_eq (opens : Opens setup host source s u repo) : repo.source = source := by
  cases opens with
  | already active same => exact same
  | first unbound opened => exact (attachSource_ok opened).1

theorem Opens.repo_mounts (opens : Opens setup host source s u repo) : repo.mounts = s.mounts := by
  cases opens with
  | already active same => simp [DaemonState.mounts, active]
  | first unbound opened => simp [DaemonState.mounts, unbound, (attachSource_ok opened).2]

theorem Opens.binding (opens : Opens setup host source s u repo) :
    u.binding = some (source, repo.gitDir) := by
  simp [DaemonState.binding, opens.active, opens.source_eq]

theorem Opens.keeps_binding (opens : Opens setup host source s u repo) {bound : String × PathBuf}
    (before : s.binding = some bound) : u.binding = some bound := by
  cases opens with
  | already active same => exact before
  | first unbound opened => simp [DaemonState.binding, unbound] at before

@[simp] theorem register_mounts (s : DaemonState) (repo : ActiveRepo) (path : PathBuf)
    (entry : MountEntry) : (s.register repo path entry).mounts = repo.mounts.insert path entry := rfl

theorem register_binding (opens : Opens setup host source s u repo) (path : PathBuf)
    (entry : MountEntry) : (u.nextProjectionId.2.register repo path entry).binding = u.binding := by
  simp [DaemonState.binding, DaemonState.register, opens.active]

theorem Stage.keeps_binding (stage : Stage setup host source s t) {bound : String × PathBuf}
    (before : s.binding = some bound) : t.binding = some bound := by
  cases stage with
  | start => exact before
  | opened opens => exact opens.keeps_binding before
  | taken opens => exact opens.keeps_binding before
  | registered opens free => rw [register_binding opens, opens.keeps_binding before]

theorem Change.keeps_binding {answer : Answer} (change : Change setup host request s answer)
    {bound : String × PathBuf} (before : s.binding = some bound) :
    answer.2.binding = some bound := by
  cases change with
  | told quiet => exact before
  | denied canonical unpoisoned opens fails reached =>
    obtain rfl | rfl := reached
    · exact opens.keeps_binding before
    · exact opens.keeps_binding before
  | mounted canonical unpoisoned opens free =>
    rw [register_binding opens, opens.keeps_binding before]
  | attached unpoisoned opens => exact opens.keeps_binding before
  | removed canonical unpoisoned active held => simpa [DaemonState.binding, active] using before
  | crashed named stage => exact stage.keeps_binding before
  | blocked poisoned => exact before
  | stopped => exact before

/-- A request for a source other than the bound one is refused and leaves all as it was. -/
theorem other_source_refused {bound : String} {gitDir : PathBuf}
    (before : s.binding = some (bound, gitDir)) (named : sourceOf request = some source)
    (other : bound ≠ source) :
    ∃ code message, dispatch setup host request s = s.refuse code message := by
  obtain ⟨repo, active, same⟩ := Option.map_eq_some_iff.mp before
  have differs : repo.source ≠ source := by
    rw [(Prod.mk.inj same).1]
    exact other
  have refused : ∀ mismatch : String → String, bindFirst setup host source mismatch s =
      .error (s.refuse Codes.sourceMismatch (mismatch repo.source)) := by
    intro mismatch
    rw [bindFirst_bound active, if_pos differs]
  cases request with
  | mount source' refName mountpoint noDotgit allowOther =>
    cases named
    simp only [dispatch, handleMount, refused]
    split
    · exact ⟨_, _, rfl⟩
    · split
      · exact ⟨_, _, rfl⟩
      · exact ⟨_, _, rfl⟩
  | attach source' =>
    cases named
    simp only [dispatch, handleAttach, refused]
    split
    · exact ⟨_, _, rfl⟩
    · exact ⟨_, _, rfl⟩
  | ping | status | shutdown | umount | fetch | prefetchHeaders | fetchMany => cases named

/- The ids. -/

/-- Ids are given out in order, from one and around; each live mount has its own. -/
structure Numbered (s : DaemonState) : Prop where
  issued : s.issued = (List.range s.issued.length).map fun i => UInt64.ofNat (i + 1)
  next : s.nextId = .ofNat (s.issued.length + 1)
  held : (mountIds s.mounts).Subperm s.issued

theorem new_numbered : Numbered .new := ⟨rfl, rfl, List.Subperm.refl _⟩

theorem Numbered.taken (numbered : Numbered s) : Numbered s.nextProjectionId.2 := by
  constructor
  · simp only [DaemonState.nextProjectionId, List.length_append, List.length_singleton]
    rw [List.range_succ, List.map_append, ← numbered.issued, numbered.next]
    rfl
  · simp only [DaemonState.nextProjectionId, List.length_append, List.length_singleton]
    rw [numbered.next, UInt64.ofNat_add (s.issued.length + 1) 1]
    rfl
  · exact numbered.held.trans (List.sublist_append_left _ _).subperm

theorem Opens.numbered (opens : Opens setup host source s u repo) (numbered : Numbered s) :
    Numbered u := by
  cases opens with
  | already active same => exact numbered
  | first unbound opened =>
    refine ⟨numbered.issued, numbered.next, ?_⟩
    simp [DaemonState.mounts, (attachSource_ok opened).2, mountIds, List.nil_subperm]

theorem registered_numbered {path : PathBuf} {refName : String}
    (opens : Opens setup host source s u repo) (free : path ∉ repo.mounts)
    (numbered : Numbered s) :
    Numbered (u.nextProjectionId.2.register repo path ⟨refName, u.nextId⟩) := by
  have taken := (opens.numbered numbered).taken
  have held : (mountIds repo.mounts).Subperm u.issued := by
    have := (opens.numbered numbered).held
    rwa [DaemonState.mounts, opens.active] at this
  refine ⟨taken.issued, taken.next, ?_⟩
  rw [register_mounts, mountIds, AList.entries_insert_of_notMem free, List.map_cons]
  refine ((List.subperm_cons _).mpr held).trans ?_
  exact (List.perm_append_singleton _ _).symm.subperm

theorem Stage.numbered (stage : Stage setup host source s t) (numbered : Numbered s) :
    Numbered t := by
  cases stage with
  | start => exact numbered
  | opened opens => exact opens.numbered numbered
  | taken opens => exact (opens.numbered numbered).taken
  | registered opens free => exact registered_numbered opens free numbered

theorem Change.numbered {answer : Answer} (change : Change setup host request s answer)
    (numbered : Numbered s) : Numbered answer.2 := by
  cases change with
  | told quiet => exact numbered
  | denied canonical unpoisoned opens fails reached =>
    obtain rfl | rfl := reached
    · exact opens.numbered numbered
    · exact (opens.numbered numbered).taken
  | mounted canonical unpoisoned opens free => exact registered_numbered opens free numbered
  | attached unpoisoned opens => exact opens.numbered numbered
  | @removed mountpoint s repo path canonical unpoisoned active held =>
    refine ⟨numbered.issued, numbered.next, ?_⟩
    have before : (mountIds repo.mounts).Subperm s.issued := by
      have := numbered.held
      rwa [DaemonState.mounts, active] at this
    exact (((List.kerase_sublist path _).map _).subperm).trans before
  | crashed named stage =>
    obtain ⟨issued, next, held⟩ := stage.numbered numbered
    exact ⟨issued, next, held⟩
  | blocked poisoned => exact ⟨numbered.issued, numbered.next, numbered.held⟩
  | stopped => exact ⟨numbered.issued, numbered.next, numbered.held⟩

end
end ProjgitRegistry

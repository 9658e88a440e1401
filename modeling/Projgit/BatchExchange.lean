import Projgit.GitCli
import Projgit.Hydration

/-!
`BatchChild::query_batch` (`fetcher/git_cli.rs`) against a child at the other end of two
bounded pipes. The client writes every id before it reads a line; the child reads one id,
writes one response, and waits while its stdout is full. Capacities are counted in lines.
The client is the program that the fetcher runs, over these pipes.
-/
namespace ProjgitExchange
open ProjgitStore Interleave LabelledRuns

section
variable {m : Type → Type 1} [Monad m]

def writeAll (write : ObjectId → m Unit) : List ObjectId → m Unit
  | [] => return ()
  | oid :: rest => do
    write oid
    writeAll write rest

def readAll (read : m String) : List ObjectId → m (List String)
  | [] => return []
  | _ :: rest => do
    let line ← read
    let more ← readAll read rest
    return line :: more

def queryBatch (write : ObjectId → m Unit) (flush : m Unit) (read : m String)
    (oids : List ObjectId) : m (List String) := do
  writeAll write oids
  flush
  readAll read oids

end

/-- The fetcher's own `query_batch` is this program over the pipes of a child. -/
theorem child_queryBatch {ω : Type} (cat : ProjgitGitCli.CatFile ω) (oids : List ObjectId)
    (child : Nat) : ProjgitGitCli.BatchChild.queryBatch cat oids child =
      queryBatch (fun oid => ProjgitGitCli.pipe (cat.writeLine child oid.toHex))
        (ProjgitGitCli.pipe (cat.flush child))
        (ProjgitGitCli.BatchChild.readLine cat
          "git cat-file --batch-check closed stdout mid-batch" child) oids := by
  have writes : ∀ oids, ProjgitGitCli.BatchChild.writeAll cat child oids =
      writeAll (fun oid => ProjgitGitCli.pipe (cat.writeLine child oid.toHex)) oids := by
    intro oids
    induction oids with
    | nil => rfl
    | cons oid rest ih => simp only [ProjgitGitCli.BatchChild.writeAll, writeAll, ih]
  have reads : ∀ oids, ProjgitGitCli.BatchChild.readAll cat child oids =
      readAll (ProjgitGitCli.BatchChild.readLine cat
        "git cat-file --batch-check closed stdout mid-batch" child) oids := by
    intro oids
    induction oids with
    | nil => rfl
    | cons oid rest ih => simp only [ProjgitGitCli.BatchChild.readAll, readAll, ih]
  simp only [ProjgitGitCli.BatchChild.queryBatch, queryBatch, writes, reads]

/-- What is on its way: ids the child has not read, the id it has read and not answered,
    and lines the client has not read. -/
structure Pipes where
  stdin : List ObjectId
  holding : Option ObjectId
  stdout : List String

def Pipes.lines (p : Pipes) : Nat := p.stdin.length + p.holding.toList.length + p.stdout.length

section
variable (stdinRoom stdoutRoom : Nat) (respond : ObjectId → String)

def writeLine (oid : ObjectId) : Prog Pipes Unit :=
  await fun p =>
    if p.stdin.length < stdinRoom then some ((), { p with stdin := p.stdin ++ [oid] }) else none

def flush : Prog Pipes Unit := await fun p => some ((), p)

def readLine : Prog Pipes String :=
  await fun p => match p.stdout with
    | [] => none
    | line :: rest => some (line, { p with stdout := rest })

structure Exchange where
  client : Prog Pipes (List String)
  pipes : Pipes

def Exchange.start (oids : List ObjectId) : Exchange :=
  ⟨queryBatch (writeLine stdinRoom) flush readLine oids, ⟨[], none, []⟩⟩

/-- The client acts, the child reads an id, or the child writes its response. -/
inductive Move where
  | client
  | take
  | answer

def Exchange.step (e : Exchange) : Move → Option Exchange
  | .client =>
    match e.client with
    | .ret _ => none
    | .atom act next => (act e.pipes).map fun r => ⟨next r.1, r.2⟩
  | .take =>
    match e.pipes.holding, e.pipes.stdin with
    | none, oid :: rest => some { e with pipes := { e.pipes with holding := some oid, stdin := rest } }
    | _, _ => none
  | .answer =>
    match e.pipes.holding with
    | some oid =>
      if e.pipes.stdout.length < stdoutRoom then
        some { e with pipes := { e.pipes with
          holding := none, stdout := e.pipes.stdout ++ [respond oid] } }
      else none
    | none => none

def Exchange.Finished (e : Exchange) : Prop := ∃ lines, e.client = .ret lines

/-- The client still wants something, and neither side can move. -/
def Exchange.Deadlocked (e : Exchange) : Prop :=
  ¬ e.Finished ∧ ∀ move, e.step stdoutRoom respond move = none

structure Writing (oids rest : List ObjectId) (e : Exchange) : Prop where
  client : e.client =
    writeAll (writeLine stdinRoom) rest >>= fun _ => flush >>= fun _ => readAll readLine oids
  stdin : e.pipes.stdin.length ≤ stdinRoom
  stdout : e.pipes.stdout.length ≤ stdoutRoom
  lines : e.pipes.lines + rest.length = oids.length

end

structure Reading (got : List String) (rest : List ObjectId) (e : Exchange) : Prop where
  client : e.client = readAll readLine rest >>= fun more => pure (got ++ more)
  lines : e.pipes.lines = rest.length

inductive Stage (stdinRoom stdoutRoom : Nat) (oids : List ObjectId) (e : Exchange) : Prop where
  | writing (rest : List ObjectId) (at_ : Writing stdinRoom stdoutRoom oids rest e)
  | reading (got : List String) (rest : List ObjectId) (at_ : Reading got rest e)

variable {stdinRoom stdoutRoom : Nat} {respond : ObjectId → String} {oids : List ObjectId}
  {e f : Exchange}

theorem start_writing (oids : List ObjectId) :
    Writing stdinRoom stdoutRoom oids oids (.start stdinRoom oids) :=
  ⟨rfl, by simp [Exchange.start], by simp [Exchange.start], by simp [Exchange.start, Pipes.lines]⟩

def Pipes.work (p : Pipes) : Nat := 2 * p.stdin.length + p.holding.toList.length

/-- A move of the child loses no line and keeps within its stdout. -/
structure ChildMoved (stdoutRoom : Nat) (p q : Pipes) : Prop where
  lines : q.lines = p.lines
  stdin : q.stdin.length ≤ p.stdin.length
  stdout : p.stdout.length ≤ stdoutRoom → q.stdout.length ≤ stdoutRoom
  work : q.work < p.work

theorem step_cases {move : Move} (taken : e.step stdoutRoom respond move = some f) :
    (∃ (β : Type) (act : Pipes → Option (β × Pipes)) (next : β → Prog Pipes (List String)) (b : β)
      (q : Pipes), e.client = .atom act next ∧ act e.pipes = some (b, q) ∧ f = ⟨next b, q⟩) ∨
    (f.client = e.client ∧ ChildMoved stdoutRoom e.pipes f.pipes) := by
  cases move with
  | client =>
    simp only [Exchange.step] at taken
    split at taken
    · cases taken
    · rename_i β act next running
      obtain ⟨⟨b, q⟩, acted, same⟩ := Option.map_eq_some_iff.mp taken
      exact .inl ⟨β, act, next, b, q, running, acted, same.symm⟩
  | take =>
    simp only [Exchange.step] at taken
    split at taken
    · rename_i oid rest idle waiting
      cases taken
      refine .inr ⟨rfl, ?_, ?_, id, ?_⟩ <;>
        (simp [Pipes.lines, Pipes.work, idle, waiting]; try omega)
    · cases taken
  | answer =>
    simp only [Exchange.step] at taken
    split at taken
    · rename_i oid held
      split at taken
      · rename_i room
        cases taken
        refine .inr ⟨rfl, ?_, le_rfl, fun _ => ?_, ?_⟩ <;>
          (simp [Pipes.lines, Pipes.work, held]; try omega)
      · cases taken
    · cases taken

/-- A move while the client writes brings the end of its writing nearer; after the last id
    it goes on to read. -/
theorem writing_step {rest : List ObjectId} {move : Move}
    (taken : e.step stdoutRoom respond move = some f)
    (writing : Writing stdinRoom stdoutRoom oids rest e) :
    (∃ more, Writing stdinRoom stdoutRoom oids more f ∧
      3 * more.length + f.pipes.work < 3 * rest.length + e.pipes.work) ∨
    (rest = [] ∧ Reading [] oids f) := by
  obtain ⟨here, stdin, stdout, lines⟩ := writing
  obtain ⟨client, p⟩ := e
  subst here
  rcases step_cases taken with ⟨β, act, next, b, q, running, acted, rfl⟩ | ⟨same, moved⟩
  · cases rest with
    | nil =>
      cases running
      cases acted
      refine .inr ⟨rfl, ?_, by simpa using lines⟩
      simp [Prog.bind]
    | cons oid more =>
      cases running
      dsimp only at acted stdin stdout lines
      split at acted
      · rename_i room
        cases acted
        refine .inl ⟨more, ⟨rfl, ?_, stdout, ?_⟩, ?_⟩
        · simpa [Nat.succ_le_iff] using room
        · simp only [Pipes.lines, List.length_append, List.length_cons, List.length_nil] at lines ⊢
          omega
        · simp only [Pipes.work, List.length_append, List.length_cons, List.length_nil]
          omega
      · cases acted
  · refine .inl ⟨rest, ⟨same, le_trans moved.stdin stdin, moved.stdout stdout, ?_⟩, ?_⟩
    · rw [moved.lines]
      exact lines
    · have less := moved.work
      omega

theorem reading_step {got : List String} {rest : List ObjectId} {move : Move}
    (taken : e.step stdoutRoom respond move = some f) (reading : Reading got rest e) :
    ∃ got more, Reading got more f := by
  obtain ⟨here, lines⟩ := reading
  obtain ⟨client, p⟩ := e
  subst here
  rcases step_cases taken with ⟨β, act, next, b, q, running, acted, rfl⟩ | ⟨same, moved⟩
  · cases rest with
    | nil => cases running
    | cons oid more =>
      cases running
      dsimp only at acted lines
      split at acted
      · cases acted
      · rename_i line others waiting
        cases acted
        refine ⟨got ++ [b], more, ?_, ?_⟩
        · change ((readAll readLine more).bind fun more => .ret (b :: more)).bind _ = _
          rw [Prog.bind_assoc]
          simp [Bind.bind, Prog.bind, Pure.pure]
        · simp only [Pipes.lines, waiting, List.length_cons] at lines ⊢
          omega
  · exact ⟨got, rest, same, moved.lines.trans lines⟩

theorem step_stage {move : Move} (taken : e.step stdoutRoom respond move = some f)
    (stage : Stage stdinRoom stdoutRoom oids e) : Stage stdinRoom stdoutRoom oids f := by
  cases stage with
  | writing rest at_ =>
    rcases writing_step taken at_ with ⟨more, writing, -⟩ | ⟨-, reading⟩
    · exact .writing more writing
    · exact .reading [] oids reading
  | reading got rest at_ =>
    obtain ⟨got', more, reading⟩ := reading_step taken at_
    exact .reading got' more reading

theorem run_stage {moves : List Move}
    (run : exec (Exchange.step stdoutRoom respond) (.start stdinRoom oids) moves = some e) :
    Stage stdinRoom stdoutRoom oids e :=
  exec_keeps (fun _ _ _ taken stage => step_stage taken stage) run (.writing oids (start_writing oids))

/-- A child that cannot move holds an answer for a full stdout, or has no id to read. -/
theorem child_blocked (take : e.step stdoutRoom respond .take = none)
    (answer : e.step stdoutRoom respond .answer = none) :
    (e.pipes.holding.isSome ∧ stdoutRoom ≤ e.pipes.stdout.length) ∨
      (e.pipes.holding = none ∧ e.pipes.stdin = []) := by
  rcases held : e.pipes.holding with _ | oid
  · right
    rcases waiting : e.pipes.stdin with _ | ⟨oid, rest⟩
    · exact ⟨rfl, rfl⟩
    · simp [Exchange.step, held, waiting] at take
  · left
    simpa [Exchange.step, held] using answer

/-- Short batches get through: whoever is blocked, the other side can move. -/
theorem stage_moves (stdin : 1 ≤ stdinRoom) (stdout : 1 ≤ stdoutRoom)
    (fits : oids.length ≤ stdinRoom + stdoutRoom + 1)
    (stage : Stage stdinRoom stdoutRoom oids e) : ¬ e.Deadlocked stdoutRoom respond := by
  intro stuck
  obtain ⟨unfinished, blocked⟩ := stuck
  have child := child_blocked (blocked .take) (blocked .answer)
  have client := blocked .client
  cases stage with
  | writing rest at_ =>
    cases rest with
    | nil =>
      simp [Exchange.step, at_.client, writeAll, flush, await, Bind.bind, Prog.bind,
        Pure.pure] at client
    | cons oid more =>
      have full : stdinRoom ≤ e.pipes.stdin.length := by
        simpa [Exchange.step, at_.client, writeAll, writeLine, await, Bind.bind, Prog.bind]
          using client
      rcases child with ⟨held, outFull⟩ | ⟨-, none⟩
      · obtain ⟨o, held⟩ := Option.isSome_iff_exists.mp held
        have lines := at_.lines
        simp only [Pipes.lines, held, Option.toList_some, List.length_cons] at lines
        omega
      · simp only [none, List.length_nil] at full
        omega
  | reading got rest at_ =>
    cases rest with
    | nil => exact unfinished ⟨got ++ [], at_.client⟩
    | cons oid more =>
      have empty : e.pipes.stdout = [] := by
        rcases waiting : e.pipes.stdout with _ | ⟨line, others⟩
        · rfl
        · simp [Exchange.step, at_.client, readAll, readLine, await, Bind.bind, Prog.bind,
            waiting] at client
      rcases child with ⟨-, outFull⟩ | ⟨idle, none⟩
      · simp only [empty, List.length_nil] at outFull
        omega
      · have lines := at_.lines
        simp [Pipes.lines, idle, none, empty] at lines

theorem Writing.not_last {rest : List ObjectId}
    (large : stdinRoom + stdoutRoom + 1 < oids.length)
    (writing : Writing stdinRoom stdoutRoom oids rest e) : rest ≠ [] := by
  intro last
  have lines := writing.lines
  have held : e.pipes.holding.toList.length ≤ 1 := by cases e.pipes.holding <;> simp
  simp only [last, Pipes.lines, List.length_nil] at lines
  have := writing.stdin
  have := writing.stdout
  omega

/-- A batch that exceeds both pipes and the child runs into the deadlock: the client cannot
    finish writing, and every move brings the stop nearer. -/
theorem writing_stops (respond : ObjectId → String)
    (large : stdinRoom + stdoutRoom + 1 < oids.length) {rest : List ObjectId} (bound : Nat)
    (writing : Writing stdinRoom stdoutRoom oids rest e)
    (near : 3 * rest.length + e.pipes.work < bound) :
    ∃ moves f, exec (Exchange.step stdoutRoom respond) e moves = some f ∧
      f.Deadlocked stdoutRoom respond := by
  induction bound generalizing e rest with
  | zero => omega
  | succ bound ih =>
    by_cases blocked : ∀ move, e.step stdoutRoom respond move = none
    · refine ⟨[], e, rfl, ?_, blocked⟩
      intro finished
      obtain ⟨lines, done⟩ := finished
      obtain ⟨oid, more, rfl⟩ := List.exists_cons_of_ne_nil (writing.not_last large)
      cases writing.client.symm.trans done
    · push Not at blocked
      obtain ⟨move, open_⟩ := blocked
      obtain ⟨next, taken⟩ := Option.ne_none_iff_exists'.mp open_
      rcases writing_step taken writing with ⟨more, later, less⟩ | ⟨last, -⟩
      · obtain ⟨moves, f, run, stuck⟩ := ih later (by omega)
        exact ⟨move :: moves, f, by simp [exec, taken, run], stuck⟩
      · exact absurd last (writing.not_last large)

/-- The exchange is free of deadlock exactly when the batch fits into the two pipes and the
    one id that the child has in hand. -/
theorem no_deadlock_iff_fits (stdinRoom stdoutRoom : Nat) (stdin : 1 ≤ stdinRoom)
    (stdout : 1 ≤ stdoutRoom) (respond : ObjectId → String) (oids : List ObjectId) :
    (∀ moves e, exec (Exchange.step stdoutRoom respond) (.start stdinRoom oids) moves = some e →
      ¬ e.Deadlocked stdoutRoom respond) ↔
    oids.length ≤ stdinRoom + stdoutRoom + 1 := by
  constructor
  · intro safe
    by_contra large
    obtain ⟨moves, f, run, stuck⟩ := writing_stops respond
      (Nat.lt_of_not_le large) _ (start_writing oids) (Nat.lt_succ_self _)
    exact safe moves f run stuck
  · intro fits moves e run
    exact stage_moves stdin stdout fits (run_stage run)

theorem three_ids_never_deadlock :
    [fixtureId 1, fixtureId 2, fixtureId 3].length ≤ 1 + 1 + 1 ∧
    ∀ moves e, exec (Exchange.step 1 fun oid => oid.toHex ++ " missing")
      (.start 1 [fixtureId 1, fixtureId 2, fixtureId 3]) moves = some e →
      ¬ e.Deadlocked 1 fun oid => oid.toHex ++ " missing" :=
  ⟨by decide, (no_deadlock_iff_fits 1 1 le_rfl le_rfl _ _).mpr (by decide)⟩

/-- Four of them: the child holds the second answer, and the fourth id finds no room. -/
theorem four_ids_deadlock :
    ∃ moves e, exec (Exchange.step 1 fun oid => oid.toHex ++ " missing")
      (.start 1 [fixtureId 1, fixtureId 2, fixtureId 3, fixtureId 4]) moves = some e ∧
      e.Deadlocked 1 fun oid => oid.toHex ++ " missing" := by
  refine ⟨[.client, .take, .answer, .client, .take, .client], _, rfl, ?_, ?_⟩
  · intro finished
    obtain ⟨lines, done⟩ := finished
    cases done
  · intro move
    cases move <;> rfl

end ProjgitExchange

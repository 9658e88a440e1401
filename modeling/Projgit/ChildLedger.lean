import Projgit.GitCli
import Projgit.Lib.Ownership

/-!
A ledger of the `git cat-file` children (`fetcher/git_cli.rs`): for every child ever spawned,
the lines that were written to it and read from it. A slot of the pool is owned by the call
that has locked it; between calls its child has answered every line. A call that fails in the
middle of an exchange leaves its child in the slot, out of step, and has to reset the slot
before it lets go.
-/
namespace ProjgitGitCli
open ProjgitStore Interleave LabelledRuns
variable {ω α : Type}

/-- A `BatchChild`: the process, and the lines that went over its pipes without an error. -/
structure ChildLog where
  handle : Nat
  written : List String
  read : List String
  deriving DecidableEq

/-- The world and every child ever spawned, in order; a child is known by its place. -/
structure Ledger (ω : Type) where
  world : ω
  children : List ChildLog

def ChildLog.wrote (line : String) (log : ChildLog) : ChildLog :=
  { log with written := log.written ++ [line] }

def ChildLog.got (line : String) (log : ChildLog) : ChildLog :=
  { log with read := log.read ++ [line] }

def Ledger.handle (l : Ledger ω) (child : Nat) : Nat :=
  ((l.children[child]?).map ChildLog.handle).getD 0

/-- `cat` with a ledger: whatever it answers is passed on and written down. -/
def CatFile.ledgered (cat : CatFile ω) : CatFile (Ledger ω) where
  spawn l :=
    match cat.spawn l.world with
    | (.ok handle, w) => (.ok l.children.length, ⟨w, l.children ++ [⟨handle, [], []⟩]⟩)
    | (.error e, w) => (.error e, ⟨w, l.children⟩)
  writeLine child line l :=
    match cat.writeLine (l.handle child) line l.world with
    | (.ok _, w) => (.ok (), ⟨w, l.children.modify child (.wrote line)⟩)
    | (.error e, w) => (.error e, ⟨w, l.children⟩)
  flush child l :=
    ((cat.flush (l.handle child) l.world).1, ⟨(cat.flush (l.handle child) l.world).2, l.children⟩)
  readLine child l :=
    match cat.readLine (l.handle child) l.world with
    | (.ok line, w) =>
      (.ok line, ⟨w, if line = "" then l.children else l.children.modify child (.got line)⟩)
    | (.error e, w) => (.error e, ⟨w, l.children⟩)
  reap child l := ((), ⟨(cat.reap (l.handle child) l.world).2, l.children⟩)
  debug := cat.debug

/-- The child has answered everything but `rest`. -/
def ChildLog.Owes (log : ChildLog) (rest : List String) : Prop :=
  ∃ front, log.written = front ++ rest ∧ front.length = log.read.length

theorem owes_nil {log : ChildLog} : log.Owes [] ↔ log.read.length = log.written.length := by
  constructor
  · rintro ⟨front, written, even⟩
    rw [written, List.append_nil, even]
  · exact fun even => ⟨log.written, (List.append_nil _).symm, even.symm⟩

theorem ChildLog.Owes.wrote {log : ChildLog} {rest : List String} (owes : log.Owes rest)
    (line : String) : (log.wrote line).Owes (rest ++ [line]) := by
  obtain ⟨front, written, even⟩ := owes
  refine ⟨front, ?_, even⟩
  simp only [ChildLog.wrote, written, List.append_assoc]

theorem ChildLog.Owes.got {log : ChildLog} {asked : String} {rest : List String}
    (owes : log.Owes (asked :: rest)) (line : String) :
    (log.got line).Owes rest ∧ (log.got line).written[log.read.length]? = some asked ∧
      (log.got line).read[log.read.length]? = some line := by
  obtain ⟨front, written, even⟩ := owes
  refine ⟨⟨front ++ [asked], ?_, ?_⟩, ?_, ?_⟩
  · simp [ChildLog.got, written]
  · simp [ChildLog.got, even]
  · simp [ChildLog.got, written, ← even]
  · simp [ChildLog.got]

def GitCli.slotAt (s : GitCli ω) (i : Nat) : Option Slot := s.batch.slots[i]?

def GitCli.logOf (s : GitCli (Ledger ω)) (child : Nat) : Option ChildLog :=
  s.store.world.children[child]?

/-- Every child is in one slot at most, and those of free slots owe nothing. -/
structure InStep (s : GitCli (Ledger ω)) : Prop where
  own : ∀ i j h h' c, s.slotAt i = some ⟨h, some c⟩ →
    s.slotAt j = some ⟨h', some c⟩ → i = j
  known : ∀ i h c, s.slotAt i = some ⟨h, some c⟩ → ∃ log, s.logOf c = some log
  even : ∀ i c, s.slotAt i = some ⟨false, some c⟩ → ∃ log, s.logOf c = some log ∧ log.Owes []

/-- What a call has of the pool: nothing, a slot, or a slot and a child for it. -/
inductive Hold where
  | nothing
  | slot (i : Nat)
  | spawned (i child : Nat)

namespace Hold

def slot? : Hold → Option Nat
  | nothing => none
  | slot i => some i
  | spawned i _ => some i

def orphan? : Hold → Option Nat
  | spawned _ c => some c
  | _ => none

def Valid (s : GitCli (Ledger ω)) : Hold → Prop
  | nothing => True
  | slot i => ∃ child, s.slotAt i = some ⟨true, child⟩
  | spawned i c => s.slotAt i = some ⟨true, none⟩ ∧
      (∃ log, s.logOf c = some log ∧ log.Owes []) ∧ ∀ j h, s.slotAt j ≠ some ⟨h, some c⟩

def Apart (a b : Hold) : Prop :=
  (∀ i, a.slot? = some i → b.slot? ≠ some i) ∧ ∀ c, a.orphan? = some c → b.orphan? ≠ some c

def Frame (a : Hold) (s t : GitCli (Ledger ω)) : Prop :=
  ∀ i, a.slot? = some i → t.slotAt i = s.slotAt i ∧
    ∀ h c, s.slotAt i = some ⟨h, some c⟩ → t.logOf c = s.logOf c

end Hold

def LogsGrow (s t : GitCli (Ledger ω)) : Prop :=
  ∀ c log, s.logOf c = some log → ∃ log', t.logOf c = some log' ∧
    log.written <+: log'.written ∧ log.read <+: log'.read

def catCustody (ω : Type) : Custody (GitCli (Ledger ω)) Hold where
  inv := InStep
  valid := Hold.Valid
  onward := LogsGrow
  frame := Hold.Frame
  apart := Hold.Apart
  nothing := .nothing
  onward_refl _ _ log found := ⟨log, found, List.prefix_rfl, List.prefix_rfl⟩
  onward_trans first second c log found := by
    obtain ⟨mid, there, written, read⟩ := first c log found
    obtain ⟨last, here, written', read'⟩ := second c mid there
    exact ⟨last, here, written.trans written', read.trans read'⟩
  frame_refl _ _ _ _ := ⟨rfl, fun _ _ _ => rfl⟩
  frame_trans first second i held := by
    obtain ⟨slots, logs⟩ := first i held
    obtain ⟨slots', logs'⟩ := second i held
    refine ⟨slots'.trans slots, fun h c found => ?_⟩
    rw [logs' h c (slots.trans found), logs h c found]
  apart_symm := fun ⟨slots, orphans⟩ =>
    ⟨fun i mine yours => slots i yours mine, fun c mine yours => orphans c yours mine⟩
  apart_nothing _ := ⟨fun _ none => (nomatch none), fun _ none => (nomatch none)⟩
  valid_nothing _ := trivial

section
variable {s t u : GitCli (Ledger ω)} {r r' o : Hold} {i c : Nat}

def GitCli.pipes (s : GitCli (Ledger ω)) : List Slot × List ChildLog :=
  (s.batch.slots, s.store.world.children)

theorem slotAt_of_pipes (same : t.pipes = s.pipes) (i : Nat) : t.slotAt i = s.slotAt i :=
  congrArg (fun p => p.1[i]?) same

theorem logOf_of_pipes (same : t.pipes = s.pipes) (c : Nat) : t.logOf c = s.logOf c :=
  congrArg (fun p => p.2[c]?) same

/-- A claim outlives a change that spares its slot and its orphan. -/
theorem Hold.Valid.keep (valid : o.Valid s)
    (slots : ∀ i, o.slot? = some i → t.slotAt i = s.slotAt i)
    (orphans : ∀ c, o.orphan? = some c → t.logOf c = s.logOf c ∧
      ∀ j h, t.slotAt j = some ⟨h, some c⟩ → ∃ j' h', s.slotAt j' = some ⟨h', some c⟩) :
    o.Valid t := by
  cases o with
  | nothing => trivial
  | slot i =>
    obtain ⟨child, found⟩ := valid
    exact ⟨child, (slots i rfl).trans found⟩
  | spawned i c =>
    obtain ⟨found, log, homeless⟩ := valid
    obtain ⟨logs, placed⟩ := orphans c rfl
    refine ⟨(slots i rfl).trans found, logs ▸ log, fun j h here => ?_⟩
    obtain ⟨j', h', before⟩ := placed j h here
    exact homeless j' h' before

theorem logsGrow_of_same (logs : ∀ c, t.logOf c = s.logOf c) : LogsGrow s t :=
  fun c log found => ⟨log, (logs c).trans found, List.prefix_rfl, List.prefix_rfl⟩

theorem catCustody_seen : (catCustody ω).SeenThrough GitCli.pipes where
  inv same inv := by
    have slots := slotAt_of_pipes same
    have logs := logOf_of_pipes same
    refine ⟨fun i j h h' c => ?_, fun i h c => ?_, fun i c => ?_⟩
    · rw [slots, slots]
      exact inv.own i j h h' c
    · rw [slots, logs]
      exact inv.known i h c
    · rw [slots, logs]
      exact inv.even i c
  valid r same valid := valid.keep (fun i _ => slotAt_of_pipes same i) fun c _ =>
    ⟨logOf_of_pipes same c, fun j h found => ⟨j, h, slotAt_of_pipes same j ▸ found⟩⟩
  onward same := logsGrow_of_same (logOf_of_pipes same)
  frame _ same i _ := ⟨slotAt_of_pipes same i, fun _ c _ => logOf_of_pipes same c⟩

/-- The child is in no other slot, is in the ledger, and is nobody else's orphan. -/
structure Placeable (s : GitCli (Ledger ω)) (r : Hold) (i c : Nat) : Prop where
  alone : ∀ j h, j ≠ i → s.slotAt j ≠ some ⟨h, some c⟩
  known : ∃ log, s.logOf c = some log
  mine : ∀ o, r.Apart o → o.Valid s → o.orphan? ≠ some c

theorem Hold.Valid.homeless (valid : o.Valid s) (orphan : o.orphan? = some c) (j : Nat) (h : Bool) :
    s.slotAt j ≠ some ⟨h, some c⟩ := by
  cases o with
  | spawned i c' =>
    cases orphan
    exact valid.2.2 j h
  | nothing => cases orphan
  | slot i => cases orphan

theorem placeable_of_slot {h : Bool} (inv : InStep s) (found : s.slotAt i = some ⟨h, some c⟩)
    (r : Hold) : Placeable s r i c where
  alone j h' differ there := differ (inv.own j i h' h c there found)
  known := inv.known i h c found
  mine _ _ valid orphan := valid.homeless orphan i h found

theorem placeable_of_spawned (valid : (Hold.spawned i c).Valid s) :
    Placeable s (.spawned i c) i c where
  alone j h _ := valid.2.2 j h
  known := valid.2.1.imp fun _ given => given.1
  mine _ apart _ := apart.2 c rfl

theorem fair_slot {new : Slot} (inv : InStep t)
    (slots : ∀ j, u.slotAt j = if j = i then some new else t.slotAt j)
    (logs : ∀ c, u.logOf c = t.logOf c)
    (placeable : ∀ c, new.child = some c → Placeable t r i c)
    (even : new.held = false → ∀ c, new.child = some c → ∃ log, t.logOf c = some log ∧ log.Owes [])
    (mine : ∀ o, r.Apart o → o.Valid t → o.slot? ≠ some i)
    (valid : r'.Valid u) (slot : ∀ j, r'.slot? = some j → j = i) (orphan : r'.orphan? = none) :
    (catCustody ω).Fair r r' t u := by
  have elsewhere : ∀ j, j ≠ i → u.slotAt j = t.slotAt j := fun j differ => by
    rw [slots, if_neg differ]
  have here : u.slotAt i = some new := by rw [slots, if_pos rfl]
  refine ⟨⟨?_, ?_, ?_⟩, valid, logsGrow_of_same logs, fun o apart held => ⟨⟨?_, ?_⟩, ?_, ?_⟩⟩
  · intro j k h h' c first second
    by_cases one : j = i <;> by_cases two : k = i
    · exact one.trans two.symm
    · rw [one, here] at first
      rw [elsewhere k two] at second
      exact absurd second ((placeable c (by cases first; rfl)).alone k h' two)
    · rw [two, here] at second
      rw [elsewhere j one] at first
      exact absurd first ((placeable c (by cases second; rfl)).alone j h one)
    · rw [elsewhere j one] at first
      rw [elsewhere k two] at second
      exact inv.own j k h h' c first second
  · intro j h c found
    rw [logs]
    by_cases one : j = i
    · rw [one, here] at found
      exact (placeable c (by cases found; rfl)).known
    · rw [elsewhere j one] at found
      exact inv.known j h c found
  · intro j c found
    rw [logs]
    by_cases one : j = i
    · rw [one, here] at found
      cases found
      exact even rfl c rfl
    · rw [elsewhere j one] at found
      exact inv.even j c found
  · intro j mine' theirs
    cases slot j mine'
    exact mine o apart held theirs
  · intro c mine'
    rw [orphan] at mine'
    cases mine'
  · refine held.keep (fun j theirs => elsewhere j fun same => ?_) fun c theirs => ⟨logs c, ?_⟩
    · exact mine o apart held (same ▸ theirs)
    · intro j h found
      by_cases one : j = i
      · rw [one, here] at found
        exact absurd theirs ((placeable c (by cases found; rfl)).mine o apart held)
      · rw [elsewhere j one] at found
        exact ⟨j, h, found⟩
  · intro j theirs
    exact ⟨elsewhere j fun same => mine o apart held (same ▸ theirs), fun _ c _ => logs c⟩

theorem fair_log {f : ChildLog → ChildLog} {i c : Nat} (inv : InStep t)
    (found : t.slotAt i = some ⟨true, some c⟩)
    (logs : ∀ d, u.logOf d = if d = c then (t.logOf c).map f else t.logOf d)
    (slots : ∀ j, u.slotAt j = t.slotAt j)
    (grows : ∀ log, log.written <+: (f log).written ∧ log.read <+: (f log).read) :
    (catCustody ω).Fair (.slot i) (.slot i) t u := by
  have elsewhere : ∀ d, d ≠ c → u.logOf d = t.logOf d := fun d differ => by
    rw [logs, if_neg differ]
  have kept : ∀ d log, t.logOf d = some log → ∃ log', u.logOf d = some log' ∧
      log.written <+: log'.written ∧ log.read <+: log'.read := by
    intro d log there
    by_cases same : d = c
    · subst same
      exact ⟨f log, by rw [logs, if_pos rfl, there]; rfl, grows log⟩
    · exact ⟨log, (elsewhere d same).trans there, List.prefix_rfl, List.prefix_rfl⟩
  have others : ∀ j h d, j ≠ i → t.slotAt j = some ⟨h, some d⟩ → d ≠ c := by
    intro j h d differ there same
    subst same
    exact differ (inv.own j i h true d there found)
  refine ⟨⟨?_, ?_, ?_⟩, ⟨some c, (slots i).trans found⟩, kept, fun o apart held => ?_⟩
  · intro j k h h' d
    rw [slots, slots]
    exact inv.own j k h h' d
  · intro j h d there
    rw [slots] at there
    obtain ⟨log, old⟩ := inv.known j h d there
    obtain ⟨log', new, -⟩ := kept d log old
    exact ⟨log', new⟩
  · intro j d there
    rw [slots] at there
    have differ : j ≠ i := by
      rintro rfl
      cases found.symm.trans there
    rw [elsewhere d (others j false d differ there)]
    exact inv.even j d there
  · refine ⟨apart, held.keep (fun j _ => slots j) fun d theirs => ⟨elsewhere d ?_, ?_⟩, ?_⟩
    · rintro rfl
      exact held.homeless theirs i true found
    · exact fun j h there => ⟨j, h, (slots j) ▸ there⟩
    · intro j theirs
      refine ⟨slots j, fun h d there => elsewhere d (others j h d ?_ there)⟩
      rintro rfl
      exact apart.1 j rfl theirs

theorem fair_spawn {i : Nat} {fresh : ChildLog} (inv : InStep t)
    (found : t.slotAt i = some ⟨true, none⟩) (slots : ∀ j, u.slotAt j = t.slotAt j)
    (children : u.store.world.children = t.store.world.children ++ [fresh])
    (owes : fresh.Owes []) :
    (catCustody ω).Fair (.slot i) (.spawned i t.store.world.children.length) t u := by
  have old : ∀ d log, t.logOf d = some log → u.logOf d = some log := by
    intro d log there
    have inside := (List.getElem?_eq_some_iff.mp there).1
    rw [GitCli.logOf, children, List.getElem?_append_left inside]
    exact there
  have new : u.logOf t.store.world.children.length = some fresh := by
    simp [GitCli.logOf, children]
  have homeless : ∀ j h, t.slotAt j ≠ some ⟨h, some t.store.world.children.length⟩ := by
    intro j h there
    obtain ⟨log, known⟩ := inv.known j h _ there
    exact absurd (List.getElem?_eq_some_iff.mp known).1 (lt_irrefl _)
  refine ⟨⟨?_, ?_, ?_⟩, ⟨(slots i).trans found, ⟨fresh, new, owes⟩, ?_⟩, ?_, fun o apart held => ?_⟩
  · intro j k h h' d
    rw [slots, slots]
    exact inv.own j k h h' d
  · intro j h d there
    rw [slots] at there
    obtain ⟨log, known⟩ := inv.known j h d there
    exact ⟨log, old d log known⟩
  · intro j d there
    rw [slots] at there
    obtain ⟨log, known, even⟩ := inv.even j d there
    exact ⟨log, old d log known, even⟩
  · intro j h
    rw [slots]
    exact homeless j h
  · exact fun d log there => ⟨log, old d log there, List.prefix_rfl, List.prefix_rfl⟩
  · have orphans : ∀ d, o.orphan? = some d → ∃ log, t.logOf d = some log := by
      intro d theirs
      cases o with
      | spawned j d' =>
        cases theirs
        exact held.2.1.imp fun _ given => given.1
      | nothing => cases theirs
      | slot j => cases theirs
    refine ⟨⟨fun j mine => apart.1 j mine, fun d mine theirs => ?_⟩, held.keep (fun j _ => slots j)
      fun d theirs => ⟨?_, fun j h there => ⟨j, h, (slots j) ▸ there⟩⟩, fun j theirs => ⟨slots j, ?_⟩⟩
    · cases mine
      obtain ⟨log, known⟩ := orphans _ theirs
      exact absurd (List.getElem?_eq_some_iff.mp known).1 (lt_irrefl _)
    · obtain ⟨log, known⟩ := orphans d theirs
      rw [old d log known, known]
    · intro h d there
      obtain ⟨log, known⟩ := inv.known j h d there
      rw [old d log known, known]

end
section
variable {s t u : GitCli (Ledger ω)} {i c : Nat} {rest : List String} {cat : CatFile ω}

def Ready (s : GitCli (Ledger ω)) (i : Nat) : Prop :=
  ∃ child, s.slotAt i = some ⟨true, child⟩ ∧
    ∀ c, child = some c → ∃ log, s.logOf c = some log ∧ log.Owes []

def Serving (s : GitCli (Ledger ω)) (i c : Nat) (rest : List String) : Prop :=
  s.slotAt i = some ⟨true, some c⟩ ∧ ∃ log, s.logOf c = some log ∧ log.Owes rest

def Answered (s : GitCli (Ledger ω)) (asked line : String) : Prop :=
  ∃ c log, s.logOf c = some log ∧
    ∃ k : Nat, log.written[k]? = some asked ∧ log.read[k]? = some line

theorem Serving.ready (serving : Serving s i c []) : Ready s i := by
  refine ⟨some c, serving.1, fun c' same => ?_⟩
  cases same
  exact serving.2

theorem Serving.later (serving : Serving s i c rest) (rely : (catCustody ω).Rely (.slot i) s t) :
    Serving t i c rest := by
  obtain ⟨slots, logs⟩ := rely.frame i rfl
  obtain ⟨found, log⟩ := serving
  exact ⟨slots.trans found, (logs true c found).symm ▸ log⟩

theorem Ready.later (ready : Ready s i) (rely : (catCustody ω).Rely (.slot i) s t) :
    Ready t i := by
  obtain ⟨slots, logs⟩ := rely.frame i rfl
  obtain ⟨child, found, even⟩ := ready
  refine ⟨child, slots.trans found, fun c same => ?_⟩
  subst same
  rw [logs true c found]
  exact even c rfl

theorem getElem?_of_grows {xs ys : List α} {a : α} {k : Nat} (grows : xs <+: ys)
    (found : xs[k]? = some a) : ys[k]? = some a := by
  obtain ⟨more, rfl⟩ := grows
  rw [List.getElem?_append_left (List.getElem?_eq_some_iff.mp found).1]
  exact found

theorem Answered.later {asked line : String} (answered : Answered s asked line)
    (grow : LogsGrow s t) : Answered t asked line := by
  obtain ⟨c, log, found, k, written, read⟩ := answered
  obtain ⟨log', found', written', read'⟩ := grow c log found
  exact ⟨c, log', found', k, getElem?_of_grows written' written, getElem?_of_grows read' read⟩

theorem setSlots_slotAt {old : Slot} (new : Slot) (found : t.slotAt i = some old) (j : Nat) :
    (t.setSlots (t.batch.slots.set i new)).slotAt j = if j = i then some new else t.slotAt j := by
  have inside := (List.getElem?_eq_some_iff.mp found).1
  by_cases same : j = i
  · subst same
    simp [GitCli.slotAt, GitCli.setSlots, inside]
  · simp [GitCli.slotAt, GitCli.setSlots, List.getElem?_set_ne (Ne.symm same), same]

theorem take_fair {child : Option Nat} (inv : InStep t) (free : t.slotAt i = some ⟨false, child⟩) :
    (catCustody ω).Fair .nothing (.slot i) t (t.setSlots (t.batch.slots.set i ⟨true, child⟩)) ∧
      Ready (t.setSlots (t.batch.slots.set i ⟨true, child⟩)) i := by
  have slots := setSlots_slotAt ⟨true, child⟩ free
  refine ⟨fair_slot inv slots (fun _ => rfl) ?_ nofun ?_ ⟨child, (slots i).trans (if_pos rfl)⟩ ?_
    rfl, child, (slots i).trans (if_pos rfl), ?_⟩
  · rintro c rfl
    exact placeable_of_slot inv free _
  · intro o _ held theirs
    cases o with
    | nothing => cases theirs
    | slot j =>
      cases theirs
      obtain ⟨child', taken⟩ := held
      cases free.symm.trans taken
    | spawned j c =>
      cases theirs
      cases free.symm.trans held.1
  · intro j same
    cases same
    rfl
  · rintro c rfl
    exact inv.even i c free

theorem put_fair {r : Hold} {old : Option Nat} (child : Option Nat) (inv : InStep t)
    (held : t.slotAt i = some ⟨true, old⟩) (mine : r.slot? = some i)
    (placeable : ∀ c, child = some c → Placeable t r i c) :
    (catCustody ω).Fair r (.slot i) t (t.setSlots (t.batch.slots.set i ⟨true, child⟩)) := by
  have slots := setSlots_slotAt ⟨true, child⟩ held
  refine fair_slot inv slots (fun _ => rfl) placeable nofun ?_
    ⟨child, (slots i).trans (if_pos rfl)⟩ ?_ rfl
  · exact fun o apart _ => apart.1 i mine
  · intro j same
    cases same
    rfl

theorem release_fair (inv : InStep t) (ready : Ready t i) :
    (catCustody ω).Fair (.slot i) .nothing t
      (t.setSlots (t.batch.slots.modify i fun slot => ⟨false, slot.child⟩)) := by
  obtain ⟨child, held, even⟩ := ready
  have slots : ∀ j, (t.setSlots (t.batch.slots.modify i fun slot => ⟨false, slot.child⟩)).slotAt j =
      if j = i then some ⟨false, child⟩ else t.slotAt j := by
    intro j
    by_cases same : j = i
    · subst same
      simp only [GitCli.slotAt, GitCli.setSlots, List.getElem?_modify_eq, if_true] at held ⊢
      rw [held]
      rfl
    · simp [GitCli.slotAt, GitCli.setSlots, List.getElem?_modify_ne, Ne.symm same, same]
  refine fair_slot inv slots (fun _ => rfl) ?_ (fun _ => even) (fun o apart _ => apart.1 i rfl)
    trivial nofun rfl
  rintro c rfl
  exact placeable_of_slot inv held _

theorem setWorld_pipes {l : Ledger ω} (same : l.children = t.store.world.children) :
    (t.setWorld l).pipes = t.pipes := by
  simp [GitCli.pipes, GitCli.setWorld, same]

namespace BatchChildPool

theorem tryLock_secures (i : Nat) (s : GitCli (Ledger ω)) :
    Secures (catCustody ω) (tryLock i) .nothing s fun got r t =>
      (got = true → r = .slot i ∧ Ready t i) ∧ (got = false → r = .nothing) := by
  refine secures_await fun t later got u ran => ?_
  split at ran
  · rename_i child free
    cases ran
    obtain ⟨fair, ready⟩ := take_fair later.inv free
    exact ⟨.slot i, fair, fun v next => ⟨fun _ => ⟨rfl, ready.later next⟩, nofun⟩⟩
  · cases ran
    exact ⟨.nothing, catCustody_seen.fair later rfl, fun v _ => ⟨nofun, fun _ => rfl⟩⟩

theorem lock_secures (i : Nat) (s : GitCli (Ledger ω)) :
    Secures (catCustody ω) (lock i) .nothing s fun _ r t => r = .slot i ∧ Ready t i := by
  refine secures_await fun t later a u ran => ?_
  split at ran
  · rename_i child free
    cases ran
    obtain ⟨fair, ready⟩ := take_fair later.inv free
    exact ⟨.slot i, fair, fun v next => ⟨rfl, ready.later next⟩⟩
  · cases ran

theorem firstFree_secures (order : List Nat) (s : GitCli (Ledger ω)) :
    Secures (catCustody ω) (firstFree order) .nothing s fun found r t =>
      (∀ i, found = some i → r = .slot i ∧ Ready t i) ∧ (found = none → r = .nothing) := by
  induction order generalizing s with
  | nil => exact secures_ret fun _ _ => ⟨nofun, fun _ => rfl⟩
  | cons i rest ih =>
    refine (tryLock_secures i s).bind fun got r t here _ given => ?_
    cases got with
    | false =>
      cases given.2 rfl
      exact ih t
    | true =>
      obtain ⟨rfl, ready⟩ := given.1 rfl
      refine secures_ret fun u next => ⟨fun j same => ?_, nofun⟩
      cases same
      exact ⟨rfl, ready.later next⟩

theorem acquire_secures (s : GitCli (Ledger ω)) :
    Secures (catCustody ω) acquire .nothing s fun i r t => r = .slot i ∧ Ready t i := by
  have advanced : Leaves GitCli.pipes (advance : Prog (GitCli (Ledger ω)) (Nat × Nat)) := by
    refine leaves_await fun s a t ran => ?_
    cases ran
    rfl
  apply (secures_of_leaves catCustody_seen advanced).bind
  rintro ⟨n, start⟩ r t - - ⟨rfl, -⟩
  refine (firstFree_secures _ t).bind fun found r u _ _ given => ?_
  cases found with
  | none =>
    cases given.2 rfl
    apply (lock_secures start u).bind
    rintro - r v - - ⟨rfl, ready⟩
    exact secures_ret fun x next => ⟨rfl, ready.later next⟩
  | some i =>
    obtain ⟨rfl, ready⟩ := given.1 i rfl
    exact secures_ret fun v next => ⟨rfl, ready.later next⟩

theorem childOf_secures (i : Nat) (s : GitCli (Ledger ω)) :
    Secures (catCustody ω) (childOf i) (.slot i) s fun child r t =>
      r = .slot i ∧ t.slotAt i = some ⟨true, child⟩ ∧ (catCustody ω).Rely (.slot i) s t := by
  refine secures_await fun t later child u ran => ?_
  obtain ⟨child', held⟩ := later.valid
  have same : child = child' ∧ u = t := by
    change t.batch.slots[i]? = _ at held
    simpa [held, eq_comm] using ran
  obtain ⟨rfl, rfl⟩ := same
  refine ⟨.slot i, catCustody_seen.fair later rfl, fun v next => ⟨rfl, ?_, later.trans next⟩⟩
  exact (next.frame i rfl).1.trans held

theorem spawn_secures (s : GitCli (Ledger ω)) (empty : s.slotAt i = some ⟨true, none⟩) :
    Secures (catCustody ω) (pipe cat.ledgered.spawn).run (.slot i) s fun answer r t =>
      match answer with
      | .ok c => r = .spawned i c
      | .error _ => r = .slot i ∧ Ready t i := by
  refine secures_await fun t later answer u ran => ?_
  have held : t.slotAt i = some ⟨true, none⟩ := (later.frame i rfl).1.trans empty
  have ready : Ready t i := ⟨none, held, nofun⟩
  rcases spawned : cat.spawn t.store.world.world with ⟨e | handle, w⟩
  · simp only [CatFile.ledgered, spawned, Option.some.injEq, Prod.mk.injEq] at ran
    obtain ⟨rfl, rfl⟩ := ran
    have quiet := catCustody_seen.fair later (setWorld_pipes (t := t) (l := ⟨w, _⟩) rfl)
    refine ⟨.slot i, quiet, fun v next => ⟨rfl, Ready.later ?_ next⟩⟩
    exact ready
  · simp only [CatFile.ledgered, spawned, Option.some.injEq, Prod.mk.injEq] at ran
    obtain ⟨rfl, rfl⟩ := ran
    refine ⟨.spawned i t.store.world.children.length, ?_, fun v _ => rfl⟩
    exact fair_spawn later.inv held (fun _ => rfl) rfl ⟨[], rfl, rfl⟩

theorem place_secures (s : GitCli (Ledger ω)) :
    Secures (catCustody ω) (setChild i (some c)) (.spawned i c) s fun _ r t =>
      r = .slot i ∧ Serving t i c [] := by
  refine secures_await fun t later a u ran => ?_
  cases ran
  obtain ⟨held, log, -⟩ := later.valid
  have placed := put_fair (some c) later.inv held rfl fun c' same => by
    cases same
    exact placeable_of_spawned later.valid
  have serving : Serving (t.setSlots (t.batch.slots.set i ⟨true, some c⟩)) i c [] :=
    ⟨(setSlots_slotAt _ held i).trans (if_pos rfl), log⟩
  exact ⟨.slot i, placed, fun v next => ⟨rfl, serving.later next⟩⟩

theorem liveChild_secures (s : GitCli (Ledger ω)) (ready : Ready s i) :
    Secures (catCustody ω) (liveChild cat.ledgered i).run (.slot i) s fun answer r t =>
      r = .slot i ∧ match answer with
        | .ok c => Serving t i c []
        | .error _ => Ready t i := by
  apply (childOf_secures i s).runLift
  rintro (_ | c) r t here - ⟨rfl, held, later⟩
  · apply (spawn_secures t held).runBind
    · exact fun e r u _ _ given => given
    · rintro c r u - - rfl
      apply (place_secures u).runLift
      rintro - r v - - ⟨rfl, serving⟩
      exact secures_ret fun x next => ⟨rfl, serving.later next⟩
  · obtain ⟨child, held', even⟩ := ready.later later
    cases held.symm.trans held'
    exact secures_ret fun u next => ⟨rfl, Serving.later ⟨held, even c rfl⟩ next⟩

theorem withChild_secures {f : Nat → ExceptT String (Prog (GitCli (Ledger ω))) α}
    {post : α → GitCli (Ledger ω) → Prop}
    (work : ∀ c s, Serving s i c [] → Secures (catCustody ω) (f c).run (.slot i) s
      fun answer r t => r = .slot i ∧ ∀ a, answer = .ok a → Ready t i ∧ post a t)
    (s : GitCli (Ledger ω)) (ready : Ready s i) :
    Secures (catCustody ω) (withChild cat.ledgered i f).run (.slot i) s fun answer r t =>
      r = .slot i ∧ match answer with
        | .error _ => Ready t i
        | .ok (.error _) => True
        | .ok (.ok a) => Ready t i ∧ post a t := by
  apply (liveChild_secures s ready).runBind
  · exact fun e r t _ _ given => given
  · rintro c r t - - ⟨rfl, serving⟩
    refine (work c t serving).stable.bind fun answer r u here _ given => ?_
    refine secures_ret fun v next => ⟨(given v next).1, ?_⟩
    cases answer with
    | error e => trivial
    | ok a => exact (given v next).2 a rfl

theorem release_secures (s : GitCli (Ledger ω)) (ready : Ready s i) :
    Secures (catCustody ω) (release i) (.slot i) s fun _ r _ => r = .nothing := by
  refine secures_await fun t later a u ran => ?_
  cases ran
  exact ⟨.nothing, release_fair later.inv (ready.later later), fun _ _ => rfl⟩

theorem reset_secures (s : GitCli (Ledger ω)) :
    Secures (catCustody ω) (reset cat.ledgered i) (.slot i) s fun _ r t =>
      r = .slot i ∧ Ready t i := by
  apply (childOf_secures i s).bind
  rintro (_ | c) r t - - ⟨rfl, held, -⟩
  · exact secures_ret fun u next => ⟨rfl, Ready.later ⟨none, held, nofun⟩ next⟩
  · have reaped : Leaves GitCli.pipes (system (cat.ledgered.reap c)) := by
      refine leaves_await fun s a t ran => ?_
      cases ran
      exact setWorld_pipes rfl
    apply (secures_of_leaves catCustody_seen reaped).bind
    rintro - r u - - ⟨rfl, -⟩
    refine secures_await fun v later a x ran => ?_
    cases ran
    obtain ⟨old, still⟩ := later.valid
    have emptied := put_fair (r := .slot i) none later.inv still rfl nofun
    refine ⟨.slot i, emptied, fun y next => ⟨rfl, Ready.later ⟨none, ?_, nofun⟩ next⟩⟩
    rw [setSlots_slotAt _ still, if_pos rfl]

end BatchChildPool

def AnswerTo (s : GitCli (Ledger ω)) (oid : ObjectId) (line : String) : Prop :=
  ∃ raw, line = BatchChild.stripNewline raw ∧ Answered s oid.toHex raw

theorem AnswerTo.later {oid : ObjectId} {line : String} (answer : AnswerTo s oid line)
    (grow : LogsGrow s t) : AnswerTo t oid line := by
  obtain ⟨raw, same, answered⟩ := answer
  exact ⟨raw, same, answered.later grow⟩

theorem modify_fair {f : ChildLog → ChildLog} {log : ChildLog} (w : ω) (inv : InStep t)
    (held : t.slotAt i = some ⟨true, some c⟩) (found : t.logOf c = some log)
    (grows : ∀ log, log.written <+: (f log).written ∧ log.read <+: (f log).read) :
    (catCustody ω).Fair (.slot i) (.slot i) t
        (t.setWorld ⟨w, t.store.world.children.modify c f⟩) ∧
      (t.setWorld ⟨w, t.store.world.children.modify c f⟩).slotAt i = some ⟨true, some c⟩ ∧
      (t.setWorld ⟨w, t.store.world.children.modify c f⟩).logOf c = some (f log) := by
  have logs : ∀ d, (t.setWorld ⟨w, t.store.world.children.modify c f⟩).logOf d =
      if d = c then (t.logOf c).map f else t.logOf d := by
    intro d
    by_cases same : d = c
    · subst same
      simp [GitCli.logOf, GitCli.setWorld]
    · simp [GitCli.logOf, GitCli.setWorld, List.getElem?_modify_ne, Ne.symm same, same]
  refine ⟨fair_log inv held logs (fun _ => rfl) grows, held, ?_⟩
  rw [logs, if_pos rfl, found]
  rfl

namespace BatchChild

theorem writeLine_secures (line : String) (s : GitCli (Ledger ω)) (serving : Serving s i c rest) :
    Secures (catCustody ω) (pipe (cat.ledgered.writeLine c line)).run (.slot i) s
      fun answer r t => r = .slot i ∧ ∀ a, answer = .ok a → Serving t i c (rest ++ [line]) := by
  refine secures_await fun t later answer u ran => ?_
  obtain ⟨held, log, found, owes⟩ := serving.later later
  rcases wrote : cat.writeLine (t.store.world.handle c) line t.store.world.world with ⟨e | _, w⟩
  · simp only [CatFile.ledgered, wrote, Option.some.injEq, Prod.mk.injEq] at ran
    obtain ⟨rfl, rfl⟩ := ran
    exact ⟨.slot i, catCustody_seen.fair later (setWorld_pipes rfl), fun v _ => ⟨rfl, nofun⟩⟩
  · simp only [CatFile.ledgered, wrote, Option.some.injEq, Prod.mk.injEq] at ran
    obtain ⟨rfl, rfl⟩ := ran
    obtain ⟨fair, held', now⟩ := modify_fair (f := .wrote line) w later.inv held found fun log =>
      ⟨List.prefix_append _ _, List.prefix_rfl⟩
    refine ⟨.slot i, fair, fun v next => ⟨rfl, fun _ _ => ?_⟩⟩
    exact Serving.later ⟨held', log.wrote line, now, owes.wrote line⟩ next

theorem flush_secures (s : GitCli (Ledger ω)) (serving : Serving s i c rest) :
    Secures (catCustody ω) (pipe (cat.ledgered.flush c)).run (.slot i) s
      fun answer r t => r = .slot i ∧ ∀ a, answer = .ok a → Serving t i c rest := by
  have quiet : Leaves GitCli.pipes (pipe (cat.ledgered.flush c)).run := by
    refine leaves_await fun s a t ran => ?_
    cases ran
    exact setWorld_pipes rfl
  exact (secures_of_leaves catCustody_seen quiet).mono fun answer r t _ _ given =>
    ⟨given.1, fun _ _ => serving.later given.2⟩

theorem pipeRead_secures {asked : String} (s : GitCli (Ledger ω))
    (serving : Serving s i c (asked :: rest)) :
    Secures (catCustody ω) (pipe (cat.ledgered.readLine c)).run (.slot i) s
      fun answer r t => r = .slot i ∧ ∀ line, answer = .ok line → line ≠ "" →
        Serving t i c rest ∧ Answered t asked line := by
  refine secures_await fun t later answer u ran => ?_
  obtain ⟨held, log, found, owes⟩ := serving.later later
  rcases got : cat.readLine (t.store.world.handle c) t.store.world.world with ⟨e | line, w⟩
  · simp only [CatFile.ledgered, got, Option.some.injEq, Prod.mk.injEq] at ran
    obtain ⟨rfl, rfl⟩ := ran
    exact ⟨.slot i, catCustody_seen.fair later (setWorld_pipes rfl), fun v _ => ⟨rfl, nofun⟩⟩
  · simp only [CatFile.ledgered, got, Option.some.injEq, Prod.mk.injEq] at ran
    obtain ⟨rfl, rfl⟩ := ran
    by_cases closed : line = ""
    · simp only [if_pos closed]
      refine ⟨.slot i, catCustody_seen.fair later (setWorld_pipes rfl), fun v _ => ⟨rfl, ?_⟩⟩
      intro line' same filled
      cases same
      exact absurd closed filled
    · simp only [if_neg closed]
      obtain ⟨fair, held', now⟩ := modify_fair (f := .got line) w later.inv held found fun log =>
        ⟨List.prefix_rfl, List.prefix_append _ _⟩
      obtain ⟨owes', written, read⟩ := owes.got line
      refine ⟨.slot i, fair, fun v next => ⟨rfl, fun line' same _ => ?_⟩⟩
      cases same
      exact ⟨Serving.later ⟨held', log.got line, now, owes'⟩ next,
        Answered.later ⟨c, log.got line, now, log.read.length, written, read⟩ next.onward⟩

theorem readLine_secures (closed : String) {oid : ObjectId} (s : GitCli (Ledger ω))
    (serving : Serving s i c (oid.toHex :: rest)) :
    Secures (catCustody ω) (readLine cat.ledgered closed c).run (.slot i) s
      fun answer r t => r = .slot i ∧ ∀ line, answer = .ok line →
        Serving t i c rest ∧ AnswerTo t oid line := by
  apply (pipeRead_secures s serving).runBind
  · exact fun e r t _ _ given => ⟨given.1, nofun⟩
  · rintro raw r t - - ⟨rfl, given⟩
    by_cases ended : raw = ""
    · rw [if_pos ended]
      exact secures_ret fun u _ => ⟨rfl, nofun⟩
    · rw [if_neg ended]
      obtain ⟨serving, answered⟩ := given raw rfl ended
      refine secures_ret fun u next => ⟨rfl, fun line same => ?_⟩
      cases same
      exact ⟨serving.later next, raw, rfl, answered.later next.onward⟩

theorem query_secures (oid : ObjectId) (c : Nat) (s : GitCli (Ledger ω))
    (serving : Serving s i c []) :
    Secures (catCustody ω) (query cat.ledgered oid c).run (.slot i) s
      fun answer r t => r = .slot i ∧ ∀ line, answer = .ok line →
        Ready t i ∧ AnswerTo t oid line := by
  apply (writeLine_secures oid.toHex s serving).runBind
  · exact fun e r t _ _ given => ⟨given.1, nofun⟩
  · rintro ⟨⟩ r t - - ⟨rfl, wrote⟩
    apply (flush_secures t (wrote _ rfl)).runBind
    · exact fun e r u _ _ given => ⟨given.1, nofun⟩
    · rintro ⟨⟩ r u - - ⟨rfl, flushed⟩
      refine (readLine_secures _ u (flushed _ rfl)).mono fun answer r v _ _ given => ?_
      refine ⟨given.1, fun line same => ?_⟩
      obtain ⟨served, answered⟩ := given.2 line same
      exact ⟨served.ready, answered⟩

theorem writeAll_secures (oids : List ObjectId) (s : GitCli (Ledger ω))
    (serving : Serving s i c rest) :
    Secures (catCustody ω) (writeAll cat.ledgered c oids).run (.slot i) s
      fun answer r t => r = .slot i ∧ ∀ a, answer = .ok a →
        Serving t i c (rest ++ oids.map ObjectId.toHex) := by
  induction oids generalizing rest s with
  | nil =>
    refine secures_ret fun t later => ⟨rfl, fun _ _ => ?_⟩
    rw [List.map_nil, List.append_nil]
    exact serving.later later
  | cons oid more ih =>
    apply (writeLine_secures oid.toHex s serving).runBind
    · exact fun e r t _ _ given => ⟨given.1, nofun⟩
    · rintro ⟨⟩ r t - - ⟨rfl, wrote⟩
      have written := ih t (wrote _ rfl)
      rwa [List.append_assoc, List.singleton_append, ← List.map_cons] at written

theorem readAll_secures (oids : List ObjectId) (s : GitCli (Ledger ω))
    (serving : Serving s i c (oids.map ObjectId.toHex)) :
    Secures (catCustody ω) (readAll cat.ledgered c oids).run (.slot i) s
      fun answer r t => r = .slot i ∧ ∀ lines, answer = .ok lines →
        Serving t i c [] ∧ List.Forall₂ (AnswerTo t) oids lines := by
  induction oids generalizing s with
  | nil =>
    refine secures_ret fun t later => ⟨rfl, fun lines same => ?_⟩
    cases same
    exact ⟨serving.later later, .nil⟩
  | cons oid more ih =>
    apply (readLine_secures _ s serving).runBind
    · exact fun e r t _ _ given => ⟨given.1, nofun⟩
    · rintro line r t - - ⟨rfl, first⟩
      obtain ⟨served, answered⟩ := first line rfl
      apply (ih t served).runBind
      · exact fun e r u _ _ given => ⟨given.1, nofun⟩
      · rintro lines r u - onward ⟨rfl, others⟩
        obtain ⟨done, answers⟩ := others lines rfl
        refine secures_ret fun v next => ⟨rfl, fun all same => ?_⟩
        cases same
        refine ⟨done.later next, .cons ?_ (answers.imp fun _ _ each => each.later next.onward)⟩
        exact (answered.later onward).later next.onward

theorem queryBatch_secures (oids : List ObjectId) (c : Nat) (s : GitCli (Ledger ω))
    (serving : Serving s i c []) :
    Secures (catCustody ω) (queryBatch cat.ledgered oids c).run (.slot i) s
      fun answer r t => r = .slot i ∧ ∀ lines, answer = .ok lines →
        Ready t i ∧ List.Forall₂ (AnswerTo t) oids lines := by
  apply (writeAll_secures oids s serving).runBind
  · exact fun e r t _ _ given => ⟨given.1, nofun⟩
  · rintro ⟨⟩ r t - - ⟨rfl, wrote⟩
    apply (flush_secures t (wrote _ rfl)).runBind
    · exact fun e r u _ _ given => ⟨given.1, nofun⟩
    · rintro ⟨⟩ r u - - ⟨rfl, flushed⟩
      refine (readAll_secures oids u (flushed _ rfl)).mono fun answer r v _ _ given => ?_
      refine ⟨given.1, fun lines same => ?_⟩
      obtain ⟨served, answers⟩ := given.2 lines same
      exact ⟨served.ready, answers⟩

end BatchChild

end
end ProjgitGitCli

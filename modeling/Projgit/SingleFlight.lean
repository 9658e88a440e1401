import Mathlib.Data.List.Induction
import Projgit.Coalesce

/-!
What `do_or_join` guarantees over whole runs. A run is any interleaving of lock
sections from an empty coalescer. `Installed` and the `finish` actions read the
leader of a slot and the result it computed off the run itself, so the statements
do not rest on the bookkeeping inside `Phase`.
-/
namespace ProjgitCoalesce
open LabelledRuns
variable {K V : Type} [DecidableEq K]

/-- Call `c` put `slot` into the map, under `key`, somewhere in the run. -/
def Installed (acts : List (Action K V)) (c : CallId) (key : K) (slot : SlotId) : Prop :=
  ∃ before after s, acts = before ++ .start c key :: after ∧
    exec step Machine.new before = some s ∧ (s.coalescer.installOrJoin key).1 = (slot, true)

/-- Call `c` was started for `key`, and `install_or_join` gave it `slot` in that role. -/
def Entered (acts : List (Action K V)) (c : CallId) (key : K) (slot : SlotId) (leader : Bool) :
    Prop :=
  ∃ before after s, acts = before ++ .start c key :: after ∧
    exec step Machine.new before = some s ∧ (s.coalescer.installOrJoin key).1 = (slot, leader)

def Phase.role : Phase K V → Option (K × SlotId × Bool)
  | .absent => none
  | .leading key slot | .publishing key slot _ | .evicting key slot _ | .unwound key slot =>
    some (key, slot, true)
  | .checking key slot | .waiting key slot => some (key, slot, false)
  | .returned leader key slot _ => some (key, slot, leader)

def Phase.computed : Phase K V → Option (Except String V)
  | .publishing _ _ result | .evicting _ _ result | .returned true _ _ result => some result
  | _ => none

def Phase.inactive : Phase K V → Bool
  | .absent | .returned .. | .unwound .. => true
  | _ => false

omit [DecidableEq K] in
theorem led_iff_role (phase : Phase K V) (key : K) (slot : SlotId) :
    phase.led = some (key, slot) ↔ phase.role = some (key, slot, true) := by
  cases phase with
  | returned leader => cases leader <;> simp [Phase.led, Phase.role]
  | _ => simp [Phase.led, Phase.role]

theorem move_bound {m t : Machine K V} {a : Action K V} (move : Move m a t) {c : CallId}
    {at_ : K × SlotId} (bound : (m.calls c).bound = some at_) :
    (t.calls c).bound = some at_ := by
  cases move with
  | publish d key slot result phase =>
    by_cases same : c = d
    · subst same; simpa [phase, Phase.bound] using bound
    · simpa [same, (notifyAll_phase slot m.calls c).2.2.1] using bound
  | _ d =>
    by_cases same : c = d
    · subst same; simp_all [Phase.bound]
    · simpa [same] using bound

omit [DecidableEq K] in
theorem notifyAll_role (slot : SlotId) (calls : CallId → Phase K V) (c : CallId) :
    (notifyAll slot calls c).role = (calls c).role := by
  cases phase : calls c <;> simp only [notifyAll, phase]
  split <;> simp [Phase.role]

theorem move_role {m t : Machine K V} {a : Action K V} (move : Move m a t) {c : CallId} {key : K}
    {slot : SlotId} {leader : Bool} (role : (t.calls c).role = some (key, slot, leader)) :
    (m.calls c).role = some (key, slot, leader) ∨
      a = .start c key ∧ (m.coalescer.installOrJoin key).1 = (slot, leader) := by
  cases move with
  | lead d k fresh missing =>
    by_cases same : c = d
    · subst same
      simp only [set_calls, if_true, Phase.role, Option.some.injEq, Prod.mk.injEq] at role
      obtain ⟨rfl, rfl, rfl⟩ := role
      exact Or.inr ⟨rfl, by simp [Coalescer.installOrJoin, missing]⟩
    · exact Or.inl (by simpa [same] using role)
  | join d k s fresh found =>
    by_cases same : c = d
    · subst same
      simp only [set_calls, if_true, Phase.role, Option.some.injEq, Prod.mk.injEq] at role
      obtain ⟨rfl, rfl, rfl⟩ := role
      exact Or.inr ⟨rfl, by simp [Coalescer.installOrJoin, found]⟩
    · exact Or.inl (by simpa [same] using role)
  | publish d k s result phase =>
    by_cases same : c = d
    · subst same; exact Or.inl (by simpa [phase, Phase.role] using role)
    · exact Or.inl (by simpa [same, notifyAll_role] using role)
  | _ d =>
    by_cases same : c = d
    · subst same; exact Or.inl (by simp_all [Phase.role])
    · exact Or.inl (by simpa [same] using role)

theorem move_led {m t : Machine K V} {a : Action K V} (move : Move m a t) {c : CallId} {key : K}
    {slot : SlotId} (led : (t.calls c).led = some (key, slot)) :
    (m.calls c).led = some (key, slot) ∨
      a = .start c key ∧ (m.coalescer.installOrJoin key).1 = (slot, true) := by
  rw [led_iff_role] at led ⊢
  exact move_role move led

theorem move_computed {m t : Machine K V} {a : Action K V} (move : Move m a t) (c : CallId)
    (r : Except String V) :
    (t.calls c).computed = some r ↔ (m.calls c).computed = some r ∨ a = .finish c r := by
  cases move with
  | publish d k s result phase =>
    by_cases same : c = d
    · subst same; simp [phase, Phase.computed]
    · have kept : (notifyAll s m.calls c).computed = (m.calls c).computed := by
        cases at_c : m.calls c <;> simp only [notifyAll, at_c]
        split <;> simp [Phase.computed]
      simp [same, kept]
  | finish d k s result phase =>
    by_cases same : c = d
    · subst same; simp [phase, Phase.computed, eq_comm]
    · simp [same, Ne.symm same]
  | _ d =>
    by_cases same : c = d
    · subst same; simp_all [Phase.computed]
    · simp [same]

theorem role_entered {acts : List (Action K V)} {m : Machine K V}
    (run : exec step Machine.new acts = some m) {c : CallId} {key : K} {slot : SlotId}
    {leader : Bool} (role : (m.calls c).role = some (key, slot, leader)) :
    Entered acts c key slot leader := by
  induction acts using List.reverseRecOn generalizing m with
  | nil =>
    cases Option.some.inj run
    simp [Machine.new, Phase.role] at role
  | append_singleton acts a ih =>
    obtain ⟨mid, before, taken⟩ := exec_snoc run
    rcases move_role (step_move taken) role with earlier | ⟨rfl, entered⟩
    · obtain ⟨pre, post, s, split, reach, entered⟩ := ih before earlier
      exact ⟨pre, post ++ [a], s, by simp [split], reach, entered⟩
    · exact ⟨acts, [], mid, rfl, before, entered⟩

theorem led_installed {acts : List (Action K V)} {m : Machine K V}
    (run : exec step Machine.new acts = some m) {c : CallId} {key : K} {slot : SlotId}
    (led : (m.calls c).led = some (key, slot)) : Installed acts c key slot :=
  role_entered run ((led_iff_role _ _ _).mp led)

theorem computed_iff_finish {acts : List (Action K V)} {m : Machine K V}
    (run : exec step Machine.new acts = some m) (c : CallId) (r : Except String V) :
    (m.calls c).computed = some r ↔ .finish c r ∈ acts := by
  induction acts using List.reverseRecOn generalizing m with
  | nil =>
    cases Option.some.inj run
    simp [Machine.new, Phase.computed]
  | append_singleton acts a ih =>
    obtain ⟨mid, before, taken⟩ := exec_snoc run
    rw [move_computed (step_move taken), ih before]
    simp [eq_comm]

theorem Inv.leader_computed {m : Machine K V} (inv : Inv m) {d : CallId} {key : K}
    {slot : SlotId} {result : Except String V} (led : (m.calls d).led = some (key, slot))
    (done : m.coalescer.slots slot = .done result) : (m.calls d).computed = some result := by
  have pending : (m.calls d).opened ≠ some slot := by
    intro opened
    simp [inv.open_pending d slot opened] at done
  have settled : ∀ r, (m.calls d).settled = some (slot, r) → r = result := by
    intro r at_d
    simpa [done, eq_comm] using inv.settled_done d slot r at_d
  cases phase : m.calls d with
  | returned leader => cases leader <;> simp_all [Phase.led, Phase.settled, Phase.computed]
  | _ => simp_all [Phase.led, Phase.opened, Phase.settled, Phase.computed]

theorem move_unwound {m t : Machine K V} {a : Action K V} (move : Move m a t) {c : CallId}
    {key : K} {slot : SlotId} (phase : t.calls c = .unwound key slot) :
    m.calls c = .unwound key slot ∨ a = .unwind c := by
  cases move with
  | publish d k s result at_d =>
    by_cases same : c = d
    · simp [same] at phase
    · simp only [set_calls, same, if_false, notifyAll] at phase
      cases at_c : m.calls c <;> simp only [at_c, reduceCtorEq] at phase
      · split at phase <;> simp at phase
      · exact Or.inl phase
  | unwind d k s at_d =>
    by_cases same : c = d
    · exact Or.inr (by rw [same])
    · exact Or.inl (by simpa [same] using phase)
  | _ d =>
    by_cases same : c = d
    · simp [same] at phase
    · exact Or.inl (by simpa [same] using phase)

theorem unwound_in_run {acts : List (Action K V)} {m : Machine K V}
    (run : exec step Machine.new acts = some m) {c : CallId} {key : K} {slot : SlotId}
    (phase : m.calls c = .unwound key slot) : .unwind c ∈ acts := by
  induction acts using List.reverseRecOn generalizing m with
  | nil =>
    cases Option.some.inj run
    simp [Machine.new] at phase
  | append_singleton acts a ih =>
    obtain ⟨mid, before, taken⟩ := exec_snoc run
    rcases move_unwound (step_move taken) phase with earlier | rfl
    · exact List.mem_append_left _ (ih before earlier)
    · simp

/-- At most one closure per key runs; a leader removes the slot it installed; a call returns
    from the slot its own start gave it, under the key it was started for, what the one leader
    of that slot computed; a quiet coalescer is empty. -/
theorem single_flight (acts : List (Action K V)) (m : Machine K V)
    (run : exec step Machine.new acts = some m) (noPanic : ∀ c, .unwind c ∉ acts) :
    (∀ c d key slot slot', m.calls c = .leading key slot → m.calls d = .leading key slot' →
      c = d ∧ Installed acts c key slot) ∧
    (∀ c key slot result, m.calls c = .evicting key slot result →
      m.coalescer.inflight.lookup key = some slot ∧ Installed acts c key slot) ∧
    (∀ c leader key slot result, m.calls c = .returned leader key slot result →
      Entered acts c key slot leader ∧
        ∃ d, Installed acts d key slot ∧ ∀ r, .finish d r ∈ acts ↔ r = result) ∧
    ((∀ c, (m.calls c).inactive) → m.coalescer.inflightCount = 0) := by
  have inv := run_inv run
  refine ⟨?_, ?_, ?_, ?_⟩
  · intro c d key slot slot' atC atD
    exact ⟨inv.holder_unique (by rw [atC]; rfl) (by rw [atD]; rfl),
      led_installed run (by rw [atC]; rfl)⟩
  · intro c key slot result phase
    exact ⟨(inv.mapped key slot).mpr ⟨c, by rw [phase]; rfl⟩,
      led_installed run (by rw [phase]; rfl)⟩
  · intro c leader key slot result phase
    obtain ⟨-, d, led⟩ := inv.installed c key slot (by rw [phase]; rfl)
    have done := inv.settled_done c slot result (by rw [phase]; rfl)
    have computed := inv.leader_computed led done
    refine ⟨role_entered run (by rw [phase]; rfl), d, led_installed run led, fun r => ?_⟩
    rw [← computed_iff_finish run, computed, Option.some.injEq, eq_comm]
  · intro quiet
    have empty : ∀ key, m.coalescer.inflight.lookup key = none := by
      intro key
      cases found : m.coalescer.inflight.lookup key with
      | none => rfl
      | some slot =>
        obtain ⟨c, holds⟩ := (inv.mapped key slot).mp found
        have still := quiet c
        cases phase : m.calls c with
        | unwound k s => exact absurd (unwound_in_run run phase) (noPanic c)
        | _ => simp_all [Phase.holds, Phase.inactive]
    have noKeys : m.coalescer.inflight.keys = [] := by
      refine List.eq_nil_iff_forall_not_mem.mpr fun key member => ?_
      exact (AList.lookup_eq_none.mp (empty key)) (AList.mem_keys.mpr member)
    simp [Coalescer.inflightCount, noKeys]

/-- A leader and a follower of key 42, run to the end. -/
def sharedRun : List (Action Nat Nat) :=
  [.start 0 42, .start 1 42, .check 1, .finish 0 (.ok 7), .publish 0, .check 1, .evict 0]

theorem single_flight_shared :
    ∃ m, exec step Machine.new sharedRun = some m ∧ m.calls 1 = .returned false 42 0 (.ok 7) ∧
      Entered sharedRun 1 42 0 false ∧
        ∃ d, Installed sharedRun d 42 0 ∧ ∀ r, .finish d r ∈ sharedRun ↔ r = .ok 7 := by
  refine ⟨_, rfl, rfl, ?_⟩
  exact (single_flight sharedRun _ rfl (by simp [sharedRun])).2.2.1 1 false 42 0 (.ok 7) rfl

/-- The call starting here finds in the map a slot that a call has already returned from.
    Only the leader's unlocked stretch between publish and evict allows it. -/
def StaleJoin (m : Machine K V) (a : Action K V) : Prop :=
  ∃ c key slot d leader result, a = .start c key ∧
    m.coalescer.inflight.lookup key = some slot ∧ m.calls d = .returned leader key slot result

/-- A call started after another returned a slot's result never returns from that slot. -/
def NotMemoised (acts : List (Action K V)) (m : Machine K V) : Prop :=
  ∀ before after c key s, acts = before ++ .start c key :: after →
    exec step Machine.new before = some s →
    ∀ d leader slot result, s.calls d = .returned leader key slot result →
    ∀ leader' result', m.calls c ≠ .returned leader' key slot result'

theorem run_bound {s m : Machine K V} {acts : List (Action K V)}
    (run : exec step s acts = some m) (c : CallId) (at_ : K × SlotId)
    (bound : (s.calls c).bound = some at_) : (m.calls c).bound = some at_ :=
  exec_keeps (fun _ _ _ taken kept => move_bound (step_move taken) kept) run bound

theorem run_not_memoised {acts : List (Action K V)} {m : Machine K V}
    (run : exec step Machine.new acts = some m)
    (meets : Meets step (fun s a => ¬ StaleJoin s a) Machine.new acts) : NotMemoised acts m := by
  intro before after c key s split reach d leader slot result returned leader' result' received
  subst split
  obtain ⟨s', reach', rest⟩ := exec_append_some run
  cases Option.some.inj (reach.symm.trans reach')
  obtain ⟨t, taken, tail⟩ := exec_cons rest
  have notStale := (meets_append reach meets).2.1
  have final : (m.calls c).bound = some (key, slot) := by rw [received]; rfl
  -- The slot a call is bound to is fixed by its `start`, so look at that step.
  cases step_move taken with
  | join _ _ other fresh found =>
    have now := run_bound tail c (key, other) (by simp [Phase.bound])
    have same : other = slot := by simpa [now] using final
    subst same
    exact notStale ⟨c, key, other, d, leader, result, rfl, found, returned⟩
  | lead _ _ fresh missing =>
    have now := run_bound tail c (key, s.coalescer.allocated) (by simp [Phase.bound])
    have same : s.coalescer.allocated = slot := by simpa [now] using final
    subst same
    exact (run_inv reach).fresh_slot d key (by rw [returned]; rfl)

/-- Two more steps of a call that starts in the window break the property. -/
theorem stale_join_memoises {acts : List (Action K V)} {s : Machine K V} {c : CallId} {key : K}
    (reach : exec step Machine.new acts = some s) (fresh : s.calls c = .absent)
    (stale : StaleJoin s (.start c key)) :
    ∃ m, exec step Machine.new (acts ++ [.start c key, .check c]) = some m ∧
      ¬ NotMemoised (acts ++ [.start c key, .check c]) m := by
  obtain ⟨c', key', slot, d, leader, result, same, found, returned⟩ := stale
  cases same
  have done := (run_inv reach).settled_done d slot result (by rw [returned]; rfl)
  refine ⟨(s.set c (.checking key slot)).set c (.returned false key slot result), ?_, ?_⟩
  · simp [exec_append, reach, exec, step, fresh, Coalescer.installOrJoin, found, done]
  · intro property
    exact property acts [.check c] c key s rfl reach d leader slot result returned false result
      (by simp)

/-- Runs in which no call starts on a slot already returned from never memoise, and any
    reachable state that offers such a start continues to a run that does. -/
theorem not_memoised_exactly :
    (∀ (acts : List (Action K V)) (m : Machine K V), exec step Machine.new acts = some m →
      Meets step (fun s a => ¬ StaleJoin s a) Machine.new acts → NotMemoised acts m) ∧
    (∀ (acts : List (Action K V)) (s : Machine K V) (c : CallId) (key : K),
      exec step Machine.new acts = some s → s.calls c = .absent → StaleJoin s (.start c key) →
      ∃ more m, exec step Machine.new (acts ++ more) = some m ∧
        ¬ NotMemoised (acts ++ more) m) := by
  constructor
  · intro acts m run meets
    exact run_not_memoised run meets
  · intro acts s c key reach fresh stale
    obtain ⟨m, run, broken⟩ := stale_join_memoises reach fresh stale
    exact ⟨_, m, run, broken⟩

def sequentialRun : List (Action Nat Nat) :=
  [.start 0 5, .finish 0 (.error "first"), .publish 0, .evict 0, .start 1 5,
    .finish 1 (.ok 123), .publish 1, .evict 1]

theorem not_memoised_sequential :
    ∃ m, exec step Machine.new sequentialRun = some m ∧
      m.calls 1 = .returned true 5 1 (.ok 123) ∧ NotMemoised sequentialRun m := by
  refine ⟨_, rfl, rfl, not_memoised_exactly.1 sequentialRun _ rfl ?_⟩
  simp [sequentialRun, Meets, StaleJoin, step, Machine.new, Coalescer.new,
    Coalescer.installOrJoin, Coalescer.evict, Coalescer.publish]

/-- The follower returns between publish and evict, calls again and gets the old result. -/
theorem follower_receives_old_result :
    ∃ (acts : List (Action Nat Nat)) (m : Machine Nat Nat),
      exec step Machine.new acts = some m ∧ ¬ NotMemoised acts m := by
  refine ⟨[.start 0 5, .start 1 5, .finish 0 (.error "first"), .publish 0, .check 1] ++
    [.start 2 5, .check 2], _, rfl, fun property => ?_⟩
  exact property _ [.check 2] 2 5 _ rfl rfl 1 false 0 (.error "first") rfl false
    (.error "first") rfl

/-- A pending slot in the map, or under a call waiting for it, has a leader at work. -/
def NoWedge (m : Machine K V) : Prop :=
  (∀ key slot, m.coalescer.inflight.lookup key = some slot →
    m.coalescer.slots slot = .pending →
    ∃ c, m.calls c = .leading key slot ∨ ∃ result, m.calls c = .publishing key slot result) ∧
  (∀ c key slot, m.calls c = .checking key slot ∨ m.calls c = .waiting key slot →
    m.coalescer.slots slot = .pending →
    ∃ d, m.calls d = .leading key slot ∨ ∃ result, m.calls d = .publishing key slot result)

theorem Inv.pending_leader {m : Machine K V} (inv : Inv m)
    (sound : ∀ c key slot, m.calls c ≠ .unwound key slot) {d : CallId} {key : K} {slot : SlotId}
    (led : (m.calls d).led = some (key, slot)) (pending : m.coalescer.slots slot = .pending) :
    m.calls d = .leading key slot ∨ ∃ result, m.calls d = .publishing key slot result := by
  have unsettled : ∀ r, (m.calls d).settled ≠ some (slot, r) := by
    intro r settled
    simp [inv.settled_done d slot r settled] at pending
  have alive := sound d
  cases phase : m.calls d with
  | returned leader => cases leader <;> simp_all [Phase.led, Phase.settled]
  | _ => simp_all [Phase.led, Phase.settled]

theorem Inv.no_wedge {m : Machine K V} (inv : Inv m)
    (sound : ∀ c key slot, m.calls c ≠ .unwound key slot) : NoWedge m := by
  constructor
  · intro key slot found pending
    obtain ⟨d, holds⟩ := (inv.mapped key slot).mp found
    exact ⟨d, inv.pending_leader sound (led_of_holds holds) pending⟩
  · intro c key slot follows pending
    have bound : (m.calls c).bound = some (key, slot) := by
      rcases follows with phase | phase <;> rw [phase] <;> rfl
    obtain ⟨-, d, led⟩ := inv.installed c key slot bound
    exact ⟨d, inv.pending_leader sound led pending⟩

theorem unwind_wedges {m t : Machine K V} {c : CallId} (inv : Inv m)
    (taken : step m (.unwind c) = some t) : ¬ NoWedge t := by
  have after := move_inv inv (step_move taken)
  cases step_move taken with
  | unwind _ key slot phase =>
    intro wedge
    have found := (after.mapped key slot).mpr ⟨c, by simp [Phase.holds]⟩
    have pending := after.open_pending c slot (by simp [Phase.opened])
    obtain ⟨d, running⟩ := wedge.1 key slot found pending
    have led : ((m.set c (.unwound key slot)).calls d).led = some (key, slot) := by
      rcases running with phase | ⟨r, phase⟩ <;> rw [phase] <;> rfl
    have same := after.single d c key key slot led (by simp [Phase.led])
    simp [same] at running

/-- Along a run no key is ever wedged exactly when no leader's closure unwinds. -/
theorem no_wedge_iff_no_unwind (acts : List (Action K V)) (m : Machine K V)
    (run : exec step Machine.new acts = some m) :
    Along step NoWedge Machine.new acts ↔ ∀ c, .unwind c ∉ acts := by
  constructor
  · intro along c member
    obtain ⟨before, after, split⟩ := List.append_of_mem member
    subst split
    obtain ⟨s, reach, rest⟩ := exec_append_some run
    obtain ⟨t, taken, -⟩ := exec_cons rest
    have next := (along_suffix reach along).2 t taken
    exact unwind_wedges (run_inv reach) taken (along_start next)
  · intro noPanic
    have meets : Meets step (fun _ a => ∀ c, a ≠ .unwind c) Machine.new acts := by
      refine meets_of_forall (fun a member c same => ?_) _
      exact noPanic c (same ▸ member)
    refine along_of_keeps
      (fun s : Machine K V => Inv s ∧ ∀ c key slot, s.calls c ≠ .unwound key slot)
      ?_ (fun s both => both.1.no_wedge both.2) meets ⟨new_inv, by simp [Machine.new]⟩
    intro s a t taken calm given
    obtain ⟨inv, sound⟩ := given
    refine ⟨move_inv inv (step_move taken), fun c key slot phase => ?_⟩
    rcases move_unwound (step_move taken) phase with earlier | panics
    · exact sound c key slot earlier
    · exact calm c panics

theorem shared_run_never_wedged : Along step NoWedge Machine.new sharedRun :=
  (no_wedge_iff_no_unwind sharedRun _ rfl).mpr (by simp [sharedRun])

/-- One leader unwinds; the next caller of the key parks on a slot nobody will complete. -/
theorem unwound_leader_wedges_key :
    ∃ (acts : List (Action Nat Nat)) (m : Machine Nat Nat),
      exec step Machine.new acts = some m ∧ ¬ Along step NoWedge Machine.new acts ∧
        m.calls 1 = .waiting 5 0 := by
  refine ⟨[.start 0 5] ++ .unwind 0 :: [.start 1 5, .check 1], _, rfl, fun along => ?_, rfl⟩
  obtain ⟨s, reach⟩ : ∃ s, exec step Machine.new [Action.start (V := Nat) 0 5] = some s := ⟨_, rfl⟩
  obtain ⟨t, taken⟩ : ∃ t, step s (.unwind 0) = some t := by
    cases Option.some.inj reach
    exact ⟨_, rfl⟩
  exact unwind_wedges (run_inv reach) taken (along_start ((along_suffix reach along).2 t taken))

end ProjgitCoalesce

import Projgit.Lib.Runs
import Mathlib.Data.List.AList
import Mathlib.Logic.Function.Basic

/-!
Single-flight coalescing, from `fetcher/coalesce.rs`. One machine step is one lock
section of `do_or_join` (or the return or unwinding of the leader's closure, which
runs outside every lock). A slot is never reused, so its index also names the one
closure execution that completes it. Keys, values and the number of calls are
arbitrary; scheduling is the order of the actions in a run.
-/
namespace ProjgitCoalesce
open LabelledRuns
variable {K V : Type} [DecidableEq K]

abbrev SlotId := Nat
abbrev CallId := Nat

inductive SlotState (V : Type) where
  | pending
  | done (result : Except String V)
  deriving DecidableEq

/-- `inflight` is the locked map; `slots` is the contents of each allocated `Arc<Slot>`. -/
structure Coalescer (K V : Type) where
  inflight : AList (fun _ : K => SlotId)
  slots : SlotId → SlotState V
  allocated : Nat

def Coalescer.new : Coalescer K V := ⟨∅, fun _ => .pending, 0⟩

def Coalescer.inflightCount (c : Coalescer K V) : Nat := c.inflight.keys.length

/-- First lock section: the existing slot, or a fresh pending one that makes us leader. -/
def Coalescer.installOrJoin (key : K) (c : Coalescer K V) : (SlotId × Bool) × Coalescer K V :=
  match c.inflight.lookup key with
  | some existing => ((existing, false), c)
  | none =>
    let slot := c.allocated
    ((slot, true),
      { inflight := c.inflight.insert key slot
        slots := Function.update c.slots slot .pending
        allocated := slot + 1 })

def Coalescer.publish (slot : SlotId) (result : Except String V) (c : Coalescer K V) :
    Coalescer K V :=
  { c with slots := Function.update c.slots slot (.done result) }

def Coalescer.evict (key : K) (c : Coalescer K V) : Coalescer K V :=
  { c with inflight := c.inflight.erase key }

omit [DecidableEq K] in
@[simp] theorem publish_inflight (slot : SlotId) (result : Except String V)
    (c : Coalescer K V) : (c.publish slot result).inflight = c.inflight := rfl

omit [DecidableEq K] in
@[simp] theorem publish_allocated (slot : SlotId) (result : Except String V)
    (c : Coalescer K V) : (c.publish slot result).allocated = c.allocated := rfl

/-- Where one `do_or_join` call stands between two of its lock sections. -/
inductive Phase (K V : Type) where
  | absent
  | leading (key : K) (slot : SlotId)
  | publishing (key : K) (slot : SlotId) (result : Except String V)
  | evicting (key : K) (slot : SlotId) (result : Except String V)
  | checking (key : K) (slot : SlotId)
  | waiting (key : K) (slot : SlotId)
  | returned (leader : Bool) (key : K) (slot : SlotId) (result : Except String V)
  | unwound (key : K) (slot : SlotId)

structure Machine (K V : Type) where
  coalescer : Coalescer K V
  calls : CallId → Phase K V

def Machine.new : Machine K V := ⟨.new, fun _ => .absent⟩

inductive Action (K V : Type) where
  | start (call : CallId) (key : K)
  | finish (call : CallId) (result : Except String V)
  | unwind (call : CallId)
  | publish (call : CallId)
  | evict (call : CallId)
  | check (call : CallId)
  | wake (call : CallId)

/-- `Condvar::notify_all`: every call parked on the slot looks at it again. -/
def notifyAll (slot : SlotId) (calls : CallId → Phase K V) (c : CallId) : Phase K V :=
  match calls c with
  | .waiting key other => if other = slot then .checking key other else .waiting key other
  | phase => phase

def Machine.set (m : Machine K V) (c : CallId) (phase : Phase K V) : Machine K V :=
  { m with calls := Function.update m.calls c phase }

def step (m : Machine K V) : Action K V → Option (Machine K V)
  | .start c key =>
    match m.calls c with
    | .absent =>
      let ((slot, leader), next) := m.coalescer.installOrJoin key
      some (Machine.set ⟨next, m.calls⟩ c (if leader then .leading key slot else .checking key slot))
    | _ => none
  | .finish c result =>
    match m.calls c with
    | .leading key slot => some (m.set c (.publishing key slot result))
    | _ => none
  -- Unwinding drops the local `Arc` and nothing else: no publish, no evict.
  | .unwind c =>
    match m.calls c with
    | .leading key slot => some (m.set c (.unwound key slot))
    | _ => none
  | .publish c =>
    match m.calls c with
    | .publishing key slot result =>
      some (Machine.set ⟨m.coalescer.publish slot result, notifyAll slot m.calls⟩ c
        (.evicting key slot result))
    | _ => none
  | .evict c =>
    match m.calls c with
    | .evicting key slot result =>
      some (Machine.set ⟨m.coalescer.evict key, m.calls⟩ c (.returned true key slot result))
    | _ => none
  | .check c =>
    match m.calls c with
    | .checking key slot =>
      match m.coalescer.slots slot with
      | .pending => some (m.set c (.waiting key slot))
      | .done result => some (m.set c (.returned false key slot result))
    | _ => none
  -- A spurious wakeup; the `while matches!` loop looks at the slot again.
  | .wake c =>
    match m.calls c with
    | .waiting key slot => some (m.set c (.checking key slot))
    | _ => none

/-- Key and slot of the leader whose slot is still in the map. -/
def Phase.holds : Phase K V → Option (K × SlotId)
  | .leading key slot | .publishing key slot _ | .evicting key slot _ | .unwound key slot =>
    some (key, slot)
  | _ => none

/-- Key and slot of a call that installed the slot, whatever became of it. -/
def Phase.led : Phase K V → Option (K × SlotId)
  | .leading key slot | .publishing key slot _ | .evicting key slot _ | .unwound key slot
  | .returned true key slot _ => some (key, slot)
  | _ => none

def Phase.bound : Phase K V → Option (K × SlotId)
  | .absent => none
  | .leading key slot | .publishing key slot _ | .evicting key slot _ | .checking key slot
  | .waiting key slot | .returned _ key slot _ | .unwound key slot => some (key, slot)

/-- The slot whose leader has not stored a result in it. -/
def Phase.opened : Phase K V → Option SlotId
  | .leading _ slot | .publishing _ slot _ | .unwound _ slot | .waiting _ slot => some slot
  | _ => none

/-- The slot and result of a call that has stored or received one. -/
def Phase.settled : Phase K V → Option (SlotId × Except String V)
  | .evicting _ slot result | .returned _ _ slot result => some (slot, result)
  | _ => none

structure Inv (m : Machine K V) : Prop where
  mapped : ∀ key slot, m.coalescer.inflight.lookup key = some slot ↔
    ∃ c, (m.calls c).holds = some (key, slot)
  single : ∀ c d key key' slot, (m.calls c).led = some (key, slot) →
    (m.calls d).led = some (key', slot) → c = d
  installed : ∀ c key slot, (m.calls c).bound = some (key, slot) →
    slot < m.coalescer.allocated ∧ ∃ d, (m.calls d).led = some (key, slot)
  open_pending : ∀ c slot, (m.calls c).opened = some slot → m.coalescer.slots slot = .pending
  settled_done : ∀ c slot result, (m.calls c).settled = some (slot, result) →
    m.coalescer.slots slot = .done result

/-- What each action can do, guards included. `start` has two outcomes and so has `check`. -/
inductive Move (m : Machine K V) : Action K V → Machine K V → Prop where
  | join (c : CallId) (key : K) (slot : SlotId) (fresh : m.calls c = .absent)
      (found : m.coalescer.inflight.lookup key = some slot) :
      Move m (.start c key) (m.set c (.checking key slot))
  | lead (c : CallId) (key : K) (fresh : m.calls c = .absent)
      (missing : m.coalescer.inflight.lookup key = none) :
      Move m (.start c key)
        (Machine.set ⟨(m.coalescer.installOrJoin key).2, m.calls⟩ c
          (.leading key m.coalescer.allocated))
  | finish (c : CallId) (key : K) (slot : SlotId) (result : Except String V)
      (phase : m.calls c = .leading key slot) :
      Move m (.finish c result) (m.set c (.publishing key slot result))
  | unwind (c : CallId) (key : K) (slot : SlotId) (phase : m.calls c = .leading key slot) :
      Move m (.unwind c) (m.set c (.unwound key slot))
  | publish (c : CallId) (key : K) (slot : SlotId) (result : Except String V)
      (phase : m.calls c = .publishing key slot result) :
      Move m (.publish c)
        (Machine.set ⟨m.coalescer.publish slot result, notifyAll slot m.calls⟩ c
          (.evicting key slot result))
  | evict (c : CallId) (key : K) (slot : SlotId) (result : Except String V)
      (phase : m.calls c = .evicting key slot result) :
      Move m (.evict c)
        (Machine.set ⟨m.coalescer.evict key, m.calls⟩ c (.returned true key slot result))
  | park (c : CallId) (key : K) (slot : SlotId) (phase : m.calls c = .checking key slot)
      (slept : m.coalescer.slots slot = .pending) :
      Move m (.check c) (m.set c (.waiting key slot))
  | receive (c : CallId) (key : K) (slot : SlotId) (result : Except String V)
      (phase : m.calls c = .checking key slot) (found : m.coalescer.slots slot = .done result) :
      Move m (.check c) (m.set c (.returned false key slot result))
  | wake (c : CallId) (key : K) (slot : SlotId) (phase : m.calls c = .waiting key slot) :
      Move m (.wake c) (m.set c (.checking key slot))

theorem step_move {m t : Machine K V} {a : Action K V} (taken : step m a = some t) :
    Move m a t := by
  cases a with
  | start c key =>
    cases phase : m.calls c <;> simp only [step, phase, reduceCtorEq] at taken
    cases found : m.coalescer.inflight.lookup key with
    | none =>
      have lead := Move.lead c key phase found
      simp only [Coalescer.installOrJoin, found, if_true, Option.some.injEq] at taken lead
      exact taken ▸ lead
    | some slot =>
      simp only [Coalescer.installOrJoin, found, Bool.false_eq_true, if_false,
        Option.some.injEq] at taken
      exact taken ▸ Move.join c key slot phase found
  | finish c result =>
    cases phase : m.calls c <;> simp only [step, phase, reduceCtorEq, Option.some.injEq] at taken
    exact taken ▸ Move.finish c _ _ result phase
  | unwind c =>
    cases phase : m.calls c <;> simp only [step, phase, reduceCtorEq, Option.some.injEq] at taken
    exact taken ▸ Move.unwind c _ _ phase
  | publish c =>
    cases phase : m.calls c <;> simp only [step, phase, reduceCtorEq, Option.some.injEq] at taken
    exact taken ▸ Move.publish c _ _ _ phase
  | evict c =>
    cases phase : m.calls c <;> simp only [step, phase, reduceCtorEq, Option.some.injEq] at taken
    exact taken ▸ Move.evict c _ _ _ phase
  | check c =>
    cases phase : m.calls c <;> simp only [step, phase, reduceCtorEq] at taken
    rename_i key slot
    cases found : m.coalescer.slots slot with
    | pending =>
      simp only [found, Option.some.injEq] at taken
      exact taken ▸ Move.park c key slot phase found
    | done result =>
      simp only [found, Option.some.injEq] at taken
      exact taken ▸ Move.receive c key slot result phase found
  | wake c =>
    cases phase : m.calls c <;> simp only [step, phase, reduceCtorEq, Option.some.injEq] at taken
    exact taken ▸ Move.wake c _ _ phase

omit [DecidableEq K] in
@[simp, grind =] theorem set_calls (m : Machine K V) (c d : CallId) (phase : Phase K V) :
    (m.set c phase).calls d = if d = c then phase else m.calls d := by
  simp [Machine.set, Function.update_apply]

omit [DecidableEq K] in
@[simp, grind =] theorem set_coalescer (m : Machine K V) (c : CallId) (phase : Phase K V) :
    (m.set c phase).coalescer = m.coalescer := rfl

omit [DecidableEq K] in
theorem notifyAll_phase (slot : SlotId) (calls : CallId → Phase K V) (c : CallId) :
    (notifyAll slot calls c).holds = (calls c).holds ∧
      (notifyAll slot calls c).led = (calls c).led ∧
      (notifyAll slot calls c).bound = (calls c).bound ∧
      (notifyAll slot calls c).settled = (calls c).settled := by
  cases phase : calls c <;> simp only [notifyAll, phase, and_self]
  split <;> simp [Phase.holds, Phase.led, Phase.bound, Phase.settled]

omit [DecidableEq K] in
theorem notifyAll_opened {slot other : SlotId} {calls : CallId → Phase K V} {c : CallId}
    (opened : (notifyAll slot calls c).opened = some other) :
    (calls c).opened = some other ∧ ((calls c).led = none → other ≠ slot) := by
  cases phase : calls c <;> simp only [notifyAll, phase] at opened ⊢
  case waiting key parked =>
    by_cases same : parked = slot
    · simp [same, Phase.opened] at opened
    · simp only [same, if_false, Phase.opened, Option.some.injEq] at opened
      exact ⟨by simp [Phase.opened, opened], fun _ => opened ▸ same⟩
  all_goals simp_all [Phase.opened, Phase.led]

theorem new_inv : Inv (Machine.new : Machine K V) := by
  constructor <;> simp [Machine.new, Coalescer.new, Phase.holds, Phase.led, Phase.bound,
    Phase.opened, Phase.settled]

/-- A step that moves one call and touches no shared state keeps the invariant when the
    call keeps its role; the last three premises are about the new phase alone. -/
theorem set_inv {m : Machine K V} (inv : Inv m) (c : CallId) (phase : Phase K V)
    (sameHolds : phase.holds = (m.calls c).holds) (sameLed : phase.led = (m.calls c).led)
    (bound : ∀ key slot, phase.bound = some (key, slot) →
      slot < m.coalescer.allocated ∧ ∃ d, (m.calls d).led = some (key, slot))
    (opened : ∀ slot, phase.opened = some slot → m.coalescer.slots slot = .pending)
    (settled : ∀ slot result, phase.settled = some (slot, result) →
      m.coalescer.slots slot = .done result) : Inv (m.set c phase) := by
  have holdsAt : ∀ d, ((m.set c phase).calls d).holds = (m.calls d).holds := by
    intro d; by_cases at_c : d = c <;> simp [at_c, sameHolds]
  have ledAt : ∀ d, ((m.set c phase).calls d).led = (m.calls d).led := by
    intro d; by_cases at_c : d = c <;> simp [at_c, sameLed]
  constructor
  · simpa only [holdsAt, set_coalescer] using inv.mapped
  · simpa only [ledAt] using inv.single
  · intro d key slot atD
    simp only [ledAt, set_coalescer]
    by_cases at_c : d = c
    · exact bound key slot (by simpa [at_c] using atD)
    · exact inv.installed d key slot (by simpa [at_c] using atD)
  · intro d slot atD
    by_cases at_c : d = c
    · exact opened slot (by simpa [at_c] using atD)
    · exact inv.open_pending d slot (by simpa [at_c] using atD)
  · intro d slot result atD
    by_cases at_c : d = c
    · exact settled slot result (by simpa [at_c] using atD)
    · exact inv.settled_done d slot result (by simpa [at_c] using atD)

omit [DecidableEq K] in
theorem led_of_holds {phase : Phase K V} {at_ : K × SlotId} (holds : phase.holds = some at_) :
    phase.led = some at_ := by
  cases phase <;> simp_all [Phase.holds, Phase.led]

omit [DecidableEq K] in
theorem bound_of_led {phase : Phase K V} {at_ : K × SlotId} (led : phase.led = some at_) :
    phase.bound = some at_ := by
  cases phase with
  | returned leader => cases leader <;> simp_all [Phase.led, Phase.bound]
  | _ => simp_all [Phase.led, Phase.bound]

omit [DecidableEq K] in
theorem bound_of_opened {phase : Phase K V} {slot : SlotId} (opened : phase.opened = some slot) :
    ∃ key, phase.bound = some (key, slot) := by
  cases phase <;> simp_all [Phase.opened, Phase.bound]

omit [DecidableEq K] in
theorem bound_of_settled {phase : Phase K V} {slot : SlotId} {result : Except String V}
    (settled : phase.settled = some (slot, result)) : ∃ key, phase.bound = some (key, slot) := by
  cases phase <;> simp_all [Phase.settled, Phase.bound]

theorem Inv.fresh_slot {m : Machine K V} (inv : Inv m) (d : CallId) (key : K) :
    (m.calls d).bound ≠ some (key, m.coalescer.allocated) := by
  intro bound
  exact Nat.lt_irrefl _ (inv.installed d key _ bound).1

theorem Inv.holder_unique {m : Machine K V} (inv : Inv m) {c d : CallId} {key : K}
    {slot slot' : SlotId} (atC : (m.calls c).holds = some (key, slot))
    (atD : (m.calls d).holds = some (key, slot')) : c = d := by
  have mappedC := (inv.mapped key slot).mpr ⟨c, atC⟩
  have mappedD := (inv.mapped key slot').mpr ⟨d, atD⟩
  have same : slot = slot' := Option.some.inj (mappedC.symm.trans mappedD)
  subst same
  exact inv.single c d key key slot (led_of_holds atC) (led_of_holds atD)

theorem lead_inv {m : Machine K V} (inv : Inv m) (c : CallId) (key : K)
    (fresh : m.calls c = .absent) (missing : m.coalescer.inflight.lookup key = none) :
    Inv (Machine.set ⟨(m.coalescer.installOrJoin key).2, m.calls⟩ c
      (.leading key m.coalescer.allocated)) := by
  simp only [Coalescer.installOrJoin, missing]
  constructor
  · intro k slot
    simp only [set_coalescer, set_calls]
    by_cases same : k = key
    · subst same
      rw [AList.lookup_insert]
      constructor
      · intro found
        exact ⟨c, by simpa [Phase.holds] using found⟩
      · rintro ⟨d, holds⟩
        by_cases at_c : d = c
        · simpa [at_c, Phase.holds] using holds
        · have := (inv.mapped k slot).mpr ⟨d, by simpa [at_c] using holds⟩
          simp [missing] at this
    · rw [AList.lookup_insert_ne same, inv.mapped k slot]
      constructor
      · rintro ⟨d, holds⟩
        have ne : d ≠ c := by rintro rfl; simp [fresh, Phase.holds] at holds
        exact ⟨d, by simpa [ne] using holds⟩
      · rintro ⟨d, holds⟩
        by_cases at_c : d = c
        · simp [at_c, Phase.holds, Ne.symm same] at holds
        · exact ⟨d, by simpa [at_c] using holds⟩
  · intro d e k k' slot atD atE
    simp only [set_calls] at atD atE
    by_cases dc : d = c <;> by_cases ec : e = c
    · exact dc.trans ec.symm
    · simp only [dc, ec, if_true, if_false, Phase.led, Option.some.injEq, Prod.mk.injEq] at atD atE
      exact absurd (bound_of_led (atD.2 ▸ atE)) (inv.fresh_slot e k')
    · simp only [dc, ec, if_true, if_false, Phase.led, Option.some.injEq, Prod.mk.injEq] at atD atE
      exact absurd (bound_of_led (atE.2 ▸ atD)) (inv.fresh_slot d k)
    · exact inv.single d e k k' slot (by simpa [dc] using atD) (by simpa [ec] using atE)
  · intro d k slot atD
    simp only [set_coalescer, set_calls] at atD ⊢
    by_cases dc : d = c
    · simp only [dc, if_true, Phase.bound, Option.some.injEq, Prod.mk.injEq] at atD
      exact ⟨atD.2 ▸ Nat.lt_succ_self _, c, by simp [Phase.led, atD]⟩
    · obtain ⟨below, e, led⟩ := inv.installed d k slot (by simpa [dc] using atD)
      have ec : e ≠ c := by rintro rfl; simp [fresh, Phase.led] at led
      exact ⟨Nat.lt_succ_of_lt below, e, by simpa [ec] using led⟩
  · intro d slot atD
    simp only [set_coalescer, set_calls, Function.update_apply] at atD ⊢
    split
    · rfl
    · rename_i other
      by_cases dc : d = c
      · simp only [dc, if_true, Phase.opened, Option.some.injEq] at atD
        exact absurd atD.symm other
      · exact inv.open_pending d slot (by simpa [dc] using atD)
  · intro d slot result atD
    simp only [set_coalescer, set_calls, Function.update_apply] at atD ⊢
    by_cases dc : d = c
    · simp [dc, Phase.settled] at atD
    · simp only [dc, if_false] at atD
      obtain ⟨k, bound⟩ := bound_of_settled atD
      have other : slot ≠ m.coalescer.allocated := by rintro rfl; exact inv.fresh_slot d k bound
      simpa [other] using inv.settled_done d slot result atD

/-- Publishing wakes every parked follower of the slot: none is left parked on a done slot. -/
theorem publish_inv {m : Machine K V} (inv : Inv m) (c : CallId) (key : K) (slot : SlotId)
    (result : Except String V) (phase : m.calls c = .publishing key slot result) :
    Inv (Machine.set ⟨m.coalescer.publish slot result, notifyAll slot m.calls⟩ c
      (.evicting key slot result)) := by
  have pending : m.coalescer.slots slot = .pending :=
    inv.open_pending c slot (by simp [phase, Phase.opened])
  have holdsAt : ∀ d, ((Machine.set ⟨m.coalescer.publish slot result, notifyAll slot m.calls⟩ c
      (.evicting key slot result)).calls d).holds = (m.calls d).holds := by
    intro d
    by_cases dc : d = c
    · simp [dc, phase, Phase.holds]
    · simp [dc, (notifyAll_phase slot m.calls d).1]
  have ledAt : ∀ d, ((Machine.set ⟨m.coalescer.publish slot result, notifyAll slot m.calls⟩ c
      (.evicting key slot result)).calls d).led = (m.calls d).led := by
    intro d
    by_cases dc : d = c
    · simp [dc, phase, Phase.led]
    · simp [dc, (notifyAll_phase slot m.calls d).2.1]
  constructor
  · simpa only [holdsAt, set_coalescer, publish_inflight] using inv.mapped
  · simpa only [ledAt] using inv.single
  · intro d k s atD
    simp only [ledAt, set_coalescer, publish_allocated]
    by_cases dc : d = c
    · exact inv.installed c k s (by simpa [dc, phase, Phase.bound] using atD)
    · apply inv.installed d k s
      simpa [dc, (notifyAll_phase slot m.calls d).2.2.1] using atD
  · intro d s atD
    simp only [set_coalescer, set_calls, Coalescer.publish] at atD ⊢
    by_cases dc : d = c
    · simp [dc, Phase.opened] at atD
    · simp only [dc, if_false] at atD
      obtain ⟨opened, parked⟩ := notifyAll_opened atD
      have other : s ≠ slot := by
        intro same
        cases led : (m.calls d).led with
        | none => exact parked led same
        | some at_ =>
          -- A second leader of the slot being published would be the caller itself.
          obtain ⟨k, bound⟩ := bound_of_opened opened
          have at_eq : at_ = (k, s) := Option.some.inj ((bound_of_led led).symm.trans bound)
          subst at_eq same
          exact dc (inv.single d c k key s led (by simp [phase, Phase.led]))
      simpa [other] using inv.open_pending d s opened
  · intro d s r atD
    simp only [set_coalescer, set_calls, Coalescer.publish] at atD ⊢
    by_cases dc : d = c
    · simp only [dc, if_true, Phase.settled, Option.some.injEq, Prod.mk.injEq] at atD
      simp [atD.1, atD.2]
    · simp only [dc, if_false, (notifyAll_phase slot m.calls d).2.2.2] at atD
      have done := inv.settled_done d s r atD
      have other : s ≠ slot := by rintro rfl; simp [pending] at done
      simpa [other] using done

theorem evict_inv {m : Machine K V} (inv : Inv m) (c : CallId) (key : K) (slot : SlotId)
    (result : Except String V) (phase : m.calls c = .evicting key slot result) :
    Inv (Machine.set ⟨m.coalescer.evict key, m.calls⟩ c (.returned true key slot result)) := by
  have holdsC : (m.calls c).holds = some (key, slot) := by simp [phase, Phase.holds]
  have ledAt : ∀ d, ((Machine.set ⟨m.coalescer.evict key, m.calls⟩ c
      (.returned true key slot result)).calls d).led = (m.calls d).led := by
    intro d
    by_cases dc : d = c <;> simp [dc, phase, Phase.led]
  constructor
  · intro k s
    simp only [set_coalescer, set_calls, Coalescer.evict]
    by_cases same : k = key
    · subst same
      simp only [AList.lookup_erase, reduceCtorEq, false_iff, not_exists]
      intro d holds
      by_cases dc : d = c
      · simp [dc, Phase.holds] at holds
      · exact dc (inv.holder_unique (by simpa [dc] using holds) holdsC)
    · rw [AList.lookup_erase_ne same, inv.mapped k s]
      constructor
      · rintro ⟨d, holds⟩
        have dc : d ≠ c := by
          rintro rfl
          simp only [holdsC, Option.some.injEq, Prod.mk.injEq] at holds
          exact same holds.1.symm
        exact ⟨d, by simpa [dc] using holds⟩
      · rintro ⟨d, holds⟩
        by_cases dc : d = c
        · simp [dc, Phase.holds] at holds
        · exact ⟨d, by simpa [dc] using holds⟩
  · simpa only [ledAt] using inv.single
  · intro d k s atD
    simp only [ledAt]
    by_cases dc : d = c
    · exact inv.installed c k s (by simpa [dc, phase, Phase.bound] using atD)
    · exact inv.installed d k s (by simpa [dc] using atD)
  · intro d s atD
    by_cases dc : d = c
    · simp [dc, Phase.opened] at atD
    · exact inv.open_pending d s (by simpa [dc] using atD)
  · intro d s r atD
    by_cases dc : d = c
    · exact inv.settled_done c s r (by simpa [dc, phase, Phase.settled] using atD)
    · exact inv.settled_done d s r (by simpa [dc] using atD)

theorem move_inv {m t : Machine K V} {a : Action K V} (inv : Inv m) (move : Move m a t) :
    Inv t := by
  cases move with
  | join c key slot fresh found =>
    obtain ⟨d, holds⟩ := (inv.mapped key slot).mp found
    have led := led_of_holds holds
    refine set_inv inv c _ ?_ ?_ ?_ ?_ ?_
    · simp [fresh, Phase.holds]
    · simp [fresh, Phase.led]
    · intro k s same
      cases same
      exact ⟨(inv.installed d key slot (bound_of_led led)).1, d, led⟩
    · simp [Phase.opened]
    · simp [Phase.settled]
  | lead c key fresh missing => exact lead_inv inv c key fresh missing
  | finish c key slot result phase =>
    have kept := inv.installed c key slot (by simp [phase, Phase.bound])
    have pending := inv.open_pending c slot (by simp [phase, Phase.opened])
    refine set_inv inv c _ ?_ ?_ ?_ ?_ ?_ <;>
      simp_all [Phase.holds, Phase.led, Phase.bound, Phase.opened, Phase.settled]
  | unwind c key slot phase =>
    have kept := inv.installed c key slot (by simp [phase, Phase.bound])
    have pending := inv.open_pending c slot (by simp [phase, Phase.opened])
    refine set_inv inv c _ ?_ ?_ ?_ ?_ ?_ <;>
      simp_all [Phase.holds, Phase.led, Phase.bound, Phase.opened, Phase.settled]
  | publish c key slot result phase => exact publish_inv inv c key slot result phase
  | evict c key slot result phase => exact evict_inv inv c key slot result phase
  | park c key slot phase slept =>
    have kept := inv.installed c key slot (by simp [phase, Phase.bound])
    refine set_inv inv c _ ?_ ?_ ?_ ?_ ?_ <;>
      simp_all [Phase.holds, Phase.led, Phase.bound, Phase.opened, Phase.settled]
  | receive c key slot result phase found =>
    have kept := inv.installed c key slot (by simp [phase, Phase.bound])
    refine set_inv inv c _ ?_ ?_ ?_ ?_ ?_ <;>
      simp_all [Phase.holds, Phase.led, Phase.bound, Phase.opened, Phase.settled]
  | wake c key slot phase =>
    have kept := inv.installed c key slot (by simp [phase, Phase.bound])
    refine set_inv inv c _ ?_ ?_ ?_ ?_ ?_ <;>
      simp_all [Phase.holds, Phase.led, Phase.bound, Phase.opened, Phase.settled]

theorem run_inv {acts : List (Action K V)} {m : Machine K V}
    (run : exec step Machine.new acts = some m) : Inv m :=
  exec_keeps (fun _ _ _ taken inv => move_inv inv (step_move taken)) run new_inv

end ProjgitCoalesce

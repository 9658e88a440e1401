import Mathlib.Data.List.Induction
import Projgit.Lib.Runs

/- A client that keeps a server's answers and uses them again while their leases last. The
   server goes on by itself; what was told is still so if none of its steps undoes it. -/
namespace LeasedAnswers
open LabelledRuns
universe u v w x
variable {S : Type u} {A : Type v} {K : Type w} {V : Type x}

/-- An answer, what it is the answer to, and when it may not be used any more. -/
structure Lease (K : Type w) (V : Type x) where
  key : K
  value : V
  expiry : Nat

structure Client (S : Type u) (K : Type w) (V : Type x) where
  server : S
  now : Nat
  held : List (Lease K V)

inductive Move (A : Type v) (K : Type w) (V : Type x) where
  | serve (a : A)
  | reuse (k : K)
  | forget (keep : Lease K V → Bool)
  | elapse (time : Nat)

def calls : List (Move A K V) → List A
  | [] => []
  | .serve a :: rest => a :: calls rest
  | _ :: rest => calls rest

theorem calls_cons (m : Move A K V) (rest : List (Move A K V)) :
    calls (m :: rest) = calls [m] ++ calls rest := by
  cases m <;> rfl

section
variable [DecidableEq K] (step : S → A → Option S) (told : S → A → List (K × V)) (ttl : Nat)

def Client.fresh (s : Client S K V) (k : K) : Option V :=
  (s.held.find? fun lease => lease.key = k && s.now < lease.expiry).map Lease.value

def lease (now : Nat) (answer : K × V) : Lease K V := ⟨answer.1, answer.2, now + ttl⟩

def move (s : Client S K V) : Move A K V → Option (Client S K V)
  | .serve a => (step s.server a).map fun t =>
      { s with server := t, held := (told s.server a).map (lease ttl s.now) ++ s.held }
  | .reuse k => if (s.fresh k).isSome then some s else none
  | .forget keep => some { s with held := s.held.filter keep }
  | .elapse time => some { s with now := s.now + time }

end

section
variable [DecidableEq K] {step : S → A → Option S} {told : S → A → List (K × V)} {ttl : Nat}
  {s t start : Client S K V} {moves : List (Move A K V)}

theorem fresh_held {k : K} {v : V} (fresh : s.fresh k = some v) :
    ∃ lease ∈ s.held, lease.key = k ∧ lease.value = v ∧ s.now < lease.expiry := by
  obtain ⟨lease, found, same⟩ := Option.map_eq_some_iff.mp fresh
  have holds := List.find?_some found
  simp only [Bool.and_eq_true, decide_eq_true_eq] at holds
  exact ⟨lease, List.mem_of_find?_eq_some found, holds.1, same, holds.2⟩

theorem move_cases {m : Move A K V} (moved : move step told ttl s m = some t) :
    (∃ a, m = .serve a ∧ step s.server a = some t.server ∧ t.now = s.now ∧
      t.held = (told s.server a).map (lease ttl s.now) ++ s.held) ∨
    calls [m] = [] ∧ t.server = s.server ∧ ∀ lease ∈ t.held, lease ∈ s.held := by
  cases m with
  | serve a =>
    obtain ⟨server, stepped, rfl⟩ := Option.map_eq_some_iff.mp moved
    exact Or.inl ⟨a, rfl, stepped, rfl, rfl⟩
  | reuse k =>
    simp only [move] at moved
    split at moved <;> cases moved
    exact Or.inr ⟨rfl, rfl, fun _ member => member⟩
  | forget keep =>
    cases Option.some.inj moved
    exact Or.inr ⟨rfl, rfl, fun _ member => List.mem_of_mem_filter member⟩
  | elapse time =>
    cases Option.some.inj moved
    exact Or.inr ⟨rfl, rfl, fun _ member => member⟩

/-- An answer that may be used is still so: it was so when it was told, and every step of the
    server keeps it so. -/
theorem fresh_holds {allowed : S → A → Prop} {inv : S → Prop} {holds : S → K → V → Prop}
    (keeps : ∀ s a t, step s a = some t → allowed s a → inv s →
      inv t ∧ (∀ k v, holds s k v → holds t k v) ∧ ∀ k v, (k, v) ∈ told s a → holds t k v)
    (run : exec (move step told ttl) start moves = some s)
    (meets : Meets step allowed start.server (calls moves)) (first : inv start.server)
    (empty : start.held = []) :
    inv s.server ∧ ∀ k v, s.fresh k = some v → holds s.server k v := by
  have held : inv s.server ∧ ∀ lease ∈ s.held, holds s.server lease.key lease.value := by
    have begun : ∀ lease ∈ start.held, holds start.server lease.key lease.value := by
      simp [empty]
    clear empty
    induction moves generalizing start with
    | nil =>
      cases Option.some.inj run
      exact ⟨first, begun⟩
    | cons m rest ih =>
      obtain ⟨mid, moved, tail⟩ := exec_cons run
      rcases move_cases moved with ⟨a, rfl, stepped, -, grown⟩ | ⟨silent, same, fewer⟩
      · obtain ⟨now, later⟩ := (meets : _ ∧ _)
        obtain ⟨kept, still, told_⟩ := keeps _ a _ stepped now first
        refine ih tail (later _ stepped) kept fun lease member => ?_
        rw [grown, List.mem_append] at member
        rcases member with new | old
        · obtain ⟨answer, given, rfl⟩ := List.mem_map.mp new
          exact told_ _ _ given
        · exact still _ _ (begun lease old)
      · rw [calls_cons, silent, List.nil_append, ← same] at meets
        refine ih tail meets (same ▸ first) fun lease member => ?_
        rw [same]
        exact begun lease (fewer lease member)
  refine ⟨held.1, fun k v fresh => ?_⟩
  obtain ⟨lease, member, rfl, rfl, -⟩ := fresh_held fresh
  exact held.2 lease member

/-- An answer that may be used was told less than its time to live ago. -/
theorem fresh_told (run : exec (move step told ttl) start moves = some s)
    (empty : start.held = []) {k : K} {v : V} (fresh : s.fresh k = some v) :
    ∃ before a after mid, moves = before ++ .serve a :: after ∧
      exec (move step told ttl) start before = some mid ∧ (k, v) ∈ told mid.server a ∧
      s.now < mid.now + ttl := by
  have held : ∀ lease ∈ s.held, ∃ before a after mid, moves = before ++ .serve a :: after ∧
      exec (move step told ttl) start before = some mid ∧
      (lease.key, lease.value) ∈ told mid.server a ∧ lease.expiry = mid.now + ttl := by
    clear fresh
    induction moves using List.reverseRecOn generalizing s with
    | nil =>
      cases Option.some.inj run
      simp [empty]
    | append_singleton moves m ih =>
      obtain ⟨last, before, moved⟩ := exec_snoc run
      have older : ∀ lease ∈ last.held, ∃ before a after mid,
          moves ++ [m] = before ++ .serve a :: after ∧
          exec (move step told ttl) start before = some mid ∧
          (lease.key, lease.value) ∈ told mid.server a ∧ lease.expiry = mid.now + ttl := by
        intro lease member
        obtain ⟨front, a, after, mid, rfl, here, given, until_⟩ := ih before lease member
        exact ⟨front, a, after ++ [m], mid, by simp, here, given, until_⟩
      rcases move_cases moved with ⟨a, rfl, -, -, grown⟩ | ⟨-, -, fewer⟩
      · intro lease member
        rw [grown, List.mem_append] at member
        rcases member with new | old
        · obtain ⟨answer, given, rfl⟩ := List.mem_map.mp new
          exact ⟨moves, a, [], last, rfl, before, given, rfl⟩
        · exact older lease old
      · exact fun lease member => older lease (fewer lease member)
  obtain ⟨lease, member, rfl, rfl, runs⟩ := fresh_held fresh
  obtain ⟨before, a, after, mid, split, here, given, until_⟩ := held lease member
  exact ⟨before, a, after, mid, split, here, given, until_ ▸ runs⟩

end
end LeasedAnswers

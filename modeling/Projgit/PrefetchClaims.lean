import Projgit.GitCli
import Projgit.Hydration

/-!
`PrefetchClaims` and its guards (`fetcher/git_cli.rs`). A claim takes the ids that nobody
has in flight, a guard gives its own back when it is dropped, by a return or by a panic.
Whatever the candidates and the order of claims and drops, the leads of the live guards
partition the set in flight.
-/
namespace ProjgitGitCli
open ProjgitStore LabelledRuns

/-- `PrefetchClaims` with the lead lists of the guards that are alive. -/
structure PrefetchClaims where
  inflight : Finset ObjectId
  guards : List (List ObjectId)
  deriving DecidableEq

inductive ClaimEvent where
  | claim (candidates : List ObjectId)
  | drop (guard : Nat) (panicking : Bool)

namespace PrefetchClaims

def new : PrefetchClaims := ⟨∅, []⟩

/-- `Drop for ClaimGuard`: a panic runs it like a return. -/
def release (lead : List ObjectId) (inflight : Finset ObjectId) : Finset ObjectId :=
  if lead.isEmpty then inflight else lead.foldl (fun set oid => set.erase oid) inflight

def step (c : PrefetchClaims) : ClaimEvent → Option PrefetchClaims
  | .claim candidates =>
    let (lead, inflight) := claimAll candidates c.inflight
    some ⟨inflight, c.guards ++ [lead]⟩
  | .drop guard _ =>
    (c.guards[guard]?).map fun lead => ⟨release lead c.inflight, c.guards.eraseIdx guard⟩

end PrefetchClaims

theorem claimAll_lead (candidates : List ObjectId) (inflight : Finset ObjectId) :
    (claimAll candidates inflight).1 =
      (candidates.filter fun oid => oid ∉ inflight).eraseDups := by
  induction candidates generalizing inflight with
  | nil => rfl
  | cons oid rest ih =>
    by_cases taken : oid ∈ inflight
    · simp [claimAll, taken, ih]
    · have others : (rest.filter fun o => o ∉ insert oid inflight) =
          (rest.filter fun o => o ∉ inflight).filter fun o => !o == oid := by
        rw [List.filter_filter]
        apply List.filter_congr
        intro o _
        simp only [Finset.mem_insert, not_or, Bool.decide_and, decide_not, beq_eq_decide]
      simp only [claimAll, taken, if_false, ih, others]
      simp [taken, List.eraseDups_cons]

theorem claimAll_inflight (candidates : List ObjectId) (inflight : Finset ObjectId) :
    (claimAll candidates inflight).2 = inflight ∪ (claimAll candidates inflight).1.toFinset := by
  induction candidates generalizing inflight with
  | nil => simp [claimAll]
  | cons oid rest ih =>
    by_cases taken : oid ∈ inflight
    · simp only [claimAll, taken, if_true]
      exact ih inflight
    · simp only [claimAll, taken, if_false, List.toFinset_cons]
      rw [ih]
      ext o
      simp only [Finset.mem_union, Finset.mem_insert, List.mem_toFinset, or_assoc, or_left_comm]

theorem claimAll_fresh (candidates : List ObjectId) (inflight : Finset ObjectId) :
    (claimAll candidates inflight).1.Nodup ∧
      ∀ oid ∈ (claimAll candidates inflight).1, oid ∉ inflight := by
  induction candidates generalizing inflight with
  | nil => simp [claimAll]
  | cons oid rest ih =>
    by_cases taken : oid ∈ inflight
    · simp only [claimAll, taken, if_true]
      exact ih inflight
    · obtain ⟨distinct, absent⟩ := ih (insert oid inflight)
      simp only [claimAll, taken, if_false, List.nodup_cons, List.mem_cons]
      refine ⟨⟨fun member => ?_, distinct⟩, ?_⟩
      · exact absent oid member (Finset.mem_insert_self ..)
      · intro o member
        rcases member with same | later
        · exact same ▸ taken
        · exact fun here => absent o later (Finset.mem_insert_of_mem here)

namespace PrefetchClaims

theorem release_eq (lead : List ObjectId) (inflight : Finset ObjectId) :
    release lead inflight = inflight \ lead.toFinset := by
  have folded : lead.foldl (fun set oid => set.erase oid) inflight = inflight \ lead.toFinset := by
    induction lead generalizing inflight with
    | nil => simp
    | cons oid rest ih =>
      rw [List.foldl_cons, ih]
      ext o
      simp only [Finset.mem_sdiff, Finset.mem_erase, List.toFinset_cons, Finset.mem_insert]
      tauto
  unfold release
  split
  · rename_i none
    simp [List.isEmpty_iff.mp none]
  · exact folded

structure Partitioned (c : PrefetchClaims) : Prop where
  distinct : c.guards.flatten.Nodup
  exactly : c.inflight = c.guards.flatten.toFinset

theorem flatten_eraseIdx {guards : List (List ObjectId)} {guard : Nat} {lead : List ObjectId}
    (found : guards[guard]? = some lead) :
    guards.flatten.Perm (lead ++ (guards.eraseIdx guard).flatten) := by
  obtain ⟨inside, here⟩ := List.getElem?_eq_some_iff.mp found
  have order : guards.Perm (lead :: guards.eraseIdx guard) := by
    rw [← here]
    exact (List.getElem_cons_eraseIdx_perm inside).symm
  exact order.flatten

theorem step_partitioned {c d : PrefetchClaims} {event : ClaimEvent}
    (taken : c.step event = some d) (parts : c.Partitioned) : d.Partitioned := by
  cases event with
  | claim candidates =>
    cases Option.some.inj taken
    obtain ⟨distinct, absent⟩ := claimAll_fresh candidates c.inflight
    constructor
    · rw [List.flatten_append, List.flatten_singleton, List.nodup_append]
      refine ⟨parts.distinct, distinct, fun oid held o led same => ?_⟩
      refine absent o led ?_
      rw [← same, parts.exactly]
      exact List.mem_toFinset.mpr held
    · rw [claimAll_inflight, List.flatten_append, List.flatten_singleton]
      ext oid
      simp [parts.exactly]
  | drop guard panicking =>
    obtain ⟨lead, found, same⟩ := Option.map_eq_some_iff.mp taken
    cases same
    have order := flatten_eraseIdx found
    have split := List.nodup_append.mp (order.nodup_iff.mp parts.distinct)
    refine ⟨split.2.1, ?_⟩
    rw [release_eq, parts.exactly, List.toFinset_eq_of_perm _ _ order]
    ext oid
    simp only [Finset.mem_sdiff, List.mem_toFinset, List.mem_append]
    constructor
    · intro given
      exact given.1.resolve_left given.2
    · intro rest
      exact ⟨.inr rest, fun led => split.2.2 oid led oid rest rfl⟩

theorem run_partitioned {events : List ClaimEvent} {c : PrefetchClaims}
    (run : exec step new events = some c) : c.Partitioned :=
  exec_keeps (fun _ _ _ taken parts => step_partitioned taken parts) run ⟨by simp [new], rfl⟩

/-- The leads of the live guards partition the ids in flight; a claim leads the distinct
    candidates that are not in flight, in their order, and a drop releases exactly its own. -/
theorem claims_partition_inflight {events : List ClaimEvent} {c : PrefetchClaims}
    (run : exec step new events = some c) :
    c.guards.Pairwise List.Disjoint ∧ (∀ lead ∈ c.guards, lead.Nodup) ∧
    (∀ oid, oid ∈ c.inflight ↔ ∃ lead ∈ c.guards, oid ∈ lead) ∧
    (c.guards = [] → c.inflight = ∅) ∧
    (∀ candidates d, c.step (.claim candidates) = some d → ∃ lead,
      d.guards = c.guards ++ [lead] ∧
      lead = (candidates.filter fun oid => oid ∉ c.inflight).eraseDups ∧
      d.inflight = c.inflight ∪ lead.toFinset) ∧
    (∀ guard panicking d, c.step (.drop guard panicking) = some d → ∃ lead,
      c.guards[guard]? = some lead ∧ d.guards = c.guards.eraseIdx guard ∧
      ∀ oid, oid ∈ d.inflight ↔ oid ∈ c.inflight ∧ oid ∉ lead) := by
  have parts := run_partitioned run
  obtain ⟨each, apart⟩ := List.nodup_flatten.mp parts.distinct
  refine ⟨apart, each, fun oid => ?_, fun none => ?_, ?_, ?_⟩
  · rw [parts.exactly, List.mem_toFinset, List.mem_flatten]
  · rw [parts.exactly, none]
    rfl
  · intro candidates d taken
    cases Option.some.inj taken
    exact ⟨_, rfl, claimAll_lead .., claimAll_inflight ..⟩
  · intro guard panicking d taken
    obtain ⟨lead, found, same⟩ := Option.map_eq_some_iff.mp taken
    cases same
    refine ⟨lead, found, rfl, fun oid => ?_⟩
    simp [release_eq]

def overlappingClaims : List ClaimEvent :=
  [.claim [fixtureId 1, fixtureId 2, fixtureId 1], .claim [fixtureId 2, fixtureId 3], .drop 0 true]

theorem overlapping_claims_partition :
    ∃ c, exec step new overlappingClaims = some c ∧ c.guards = [[fixtureId 3]] ∧
      ∀ oid, oid ∈ c.inflight ↔ oid = fixtureId 3 := by
  have run : exec step new overlappingClaims = some ⟨{fixtureId 3}, [[fixtureId 3]]⟩ := by
    decide +kernel
  obtain ⟨-, -, exactly, -⟩ := claims_partition_inflight run
  refine ⟨_, run, rfl, fun oid => (exactly oid).trans ?_⟩
  simp

end PrefetchClaims
end ProjgitGitCli

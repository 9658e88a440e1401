import Mathlib.Data.List.Nodup
import Mathlib.Logic.Relation

/- Level-by-level search in a graph that is only known by asking. A record of a search
   holds, level by level, what was asked and what each node named. Recorded as `Walk`
   says, every node reachable through the answers is asked exactly once, at the level of
   its distance from the root. -/
namespace BreadthFirst
variable {N : Type}

/-- `n` is `k` edges away from the root on some path. -/
inductive Steps (edge : N → N → Prop) (root : N) : Nat → N → Prop where
  | start : Steps edge root 0 root
  | step {k : Nat} {n other : N} (before : Steps edge root k n) (named : edge n other) :
      Steps edge root (k + 1) other

def AtLevel (edge : N → N → Prop) (root : N) (k : Nat) (n : N) : Prop :=
  Steps edge root k n ∧ ∀ j < k, ¬ Steps edge root j n

section Distance
variable {edge : N → N → Prop} {root n : N} {k : Nat}

theorem exists_steps : Relation.ReflTransGen edge root n ↔ ∃ k, Steps edge root k n := by
  constructor
  · intro reach
    induction reach with
    | refl => exact ⟨0, .start⟩
    | tail _ named ih =>
      obtain ⟨k, steps⟩ := ih
      exact ⟨k + 1, steps.step named⟩
  · rintro ⟨k, steps⟩
    induction steps with
    | start => exact .refl
    | step _ named ih => exact ih.tail named

theorem exists_atLevel (steps : Steps edge root k n) : ∃ j ≤ k, AtLevel edge root j n := by
  induction k using Nat.strongRecOn with
  | ind k ih =>
    by_cases nearer : ∃ j < k, Steps edge root j n
    · obtain ⟨j, less, shorter⟩ := nearer
      obtain ⟨i, le, level⟩ := ih j less shorter
      exact ⟨i, by omega, level⟩
    · exact ⟨k, Nat.le_refl k, steps, fun j less shorter => nearer ⟨j, less, shorter⟩⟩

theorem atLevel_zero : AtLevel edge root 0 n ↔ n = root := by
  constructor
  · rintro ⟨steps, -⟩
    cases steps
    rfl
  · rintro rfl
    exact ⟨.start, by simp⟩

theorem atLevel_succ : AtLevel edge root (k + 1) n ↔
    (∃ before, AtLevel edge root k before ∧ edge before n) ∧
      ∀ j ≤ k, ¬ Steps edge root j n := by
  constructor
  · rintro ⟨steps, first⟩
    have far : ∀ j ≤ k, ¬ Steps edge root j n := fun j le => first j (by omega)
    cases steps with
    | step before named =>
      refine ⟨⟨_, ⟨before, fun j less shorter => ?_⟩, named⟩, far⟩
      exact far (j + 1) (by omega) (shorter.step named)
  · rintro ⟨⟨before, level, named⟩, far⟩
    exact ⟨level.1.step named, fun j less => far j (by omega)⟩

theorem atLevel_before (level : AtLevel edge root k n) {j : Nat} (le : j ≤ k) :
    ∃ before, AtLevel edge root j before := by
  induction k generalizing n with
  | zero =>
    obtain rfl : j = 0 := by omega
    exact ⟨n, level⟩
  | succ k ih =>
    by_cases same : j = k + 1
    · exact ⟨n, same ▸ level⟩
    · obtain ⟨⟨before, previous, -⟩, -⟩ := atLevel_succ.mp level
      exact ih previous (by omega)

end Distance

section Sweeping

structure Swept (named : N → Prop) (next seen next' seen' : List N) : Prop where
  mem_next : ∀ n, n ∈ next' ↔ n ∈ next ∨ named n ∧ n ∉ seen
  mem_seen : ∀ n, n ∈ seen' ↔ n ∈ seen ∨ named n
  nodup_seen : seen.Nodup → seen'.Nodup
  nodup_next : (∀ n ∈ next, n ∈ seen) → next.Nodup → next'.Nodup
  length : seen'.length + next.length = seen.length + next'.length

theorem Swept.nil (next seen : List N) : Swept (fun _ => False) next seen next seen :=
  ⟨by simp, by simp, id, fun _ => id, rfl⟩

theorem Swept.trans {first second : N → Prop} {next seen next' seen' next'' seen'' : List N}
    (a : Swept first next seen next' seen') (b : Swept second next' seen' next'' seen'') :
    Swept (fun n => first n ∨ second n) next seen next'' seen'' where
  mem_next n := by
    rw [b.mem_next, a.mem_next, a.mem_seen]
    tauto
  mem_seen n := by
    rw [b.mem_seen, a.mem_seen]
    tauto
  nodup_seen distinct := b.nodup_seen (a.nodup_seen distinct)
  nodup_next inside distinct := by
    refine b.nodup_next (fun n among => ?_) (a.nodup_next inside distinct)
    rw [a.mem_seen]
    rcases (a.mem_next n).mp among with old | new
    · exact Or.inl (inside n old)
    · exact Or.inr new.1
  length := by
    have one := a.length
    have two := b.length
    omega

theorem Swept.congr {first second : N → Prop} {next seen next' seen' : List N}
    (swept : Swept first next seen next' seen') (same : ∀ n, first n ↔ second n) :
    Swept second next seen next' seen' := by
  obtain rfl : first = second := funext fun n => propext (same n)
  exact swept

theorem swept_one {n : N} (next : List N) {seen : List N} (new : n ∉ seen) :
    Swept (· = n) next seen (next ++ [n]) (n :: seen) where
  mem_next m := by
    constructor
    · intro among
      rcases List.mem_append.mp among with old | here
      · exact Or.inl old
      · obtain rfl := List.mem_singleton.mp here
        exact Or.inr ⟨rfl, new⟩
    · rintro (old | ⟨rfl, -⟩)
      · exact List.mem_append_left _ old
      · simp
  mem_seen m := by
    rw [List.mem_cons]
    exact or_comm
  nodup_seen distinct := List.nodup_cons.mpr ⟨new, distinct⟩
  nodup_next inside distinct := by
    refine distinct.append (List.nodup_singleton n) fun m old here => ?_
    obtain rfl := List.mem_singleton.mp here
    exact new (inside m old)
  length := by simp [Nat.add_comm, Nat.add_left_comm]

theorem swept_old {n : N} (next : List N) {seen : List N} (old : n ∈ seen) :
    Swept (· = n) next seen next seen where
  mem_next m := by
    constructor
    · exact Or.inl
    · rintro (there | ⟨rfl, new⟩)
      · exact there
      · exact absurd old new
  mem_seen m := by
    constructor
    · exact Or.inl
    · rintro (there | rfl)
      · exact there
      · exact old
  nodup_seen := id
  nodup_next _ := id
  length := rfl

def nodes (record : List (List (N × List N))) : List N := record.flatten.map Prod.fst

theorem nodes_cons (level : List (N × List N)) (rest : List (List (N × List N))) :
    nodes (level :: rest) = level.map Prod.fst ++ nodes rest := by
  simp [nodes]

/-- The frontier is one level of the graph, and the nodes seen are all up to it. -/
structure Reached (edge : N → N → Prop) (root : N) (k : Nat) (frontier seen : List N) : Prop where
  frontier : ∀ n, n ∈ frontier ↔ AtLevel edge root k n
  seen : ∀ n, n ∈ seen ↔ ∃ j ≤ k, Steps edge root j n

theorem reached_root (edge : N → N → Prop) (root : N) : Reached edge root 0 [root] [root] where
  frontier n := by rw [List.mem_singleton, atLevel_zero]
  seen n := by
    constructor
    · intro same
      obtain rfl := List.mem_singleton.mp same
      exact ⟨0, Nat.le_refl 0, .start⟩
    · rintro ⟨j, le, steps⟩
      obtain rfl : j = 0 := by omega
      cases steps
      simp

end Sweeping

section Search
variable [DecidableEq N]

/-- The named nodes that are new: `next` and `seen` after them. -/
def discover (named next seen : List N) : List N × List N :=
  match named with
  | [] => (next, seen)
  | n :: rest =>
    if n ∈ seen then discover rest next seen else discover rest (next ++ [n]) (n :: seen)

def sweep : List (N × List N) → List N → List N → List N × List N
  | [], next, seen => (next, seen)
  | answer :: rest, next, seen =>
    let (next, seen) := discover answer.2 next seen
    sweep rest next seen

/-- A record of the search that goes on with a frontier, having seen some nodes. -/
inductive Walk : List N → List N → List (List (N × List N)) → Prop where
  | last {frontier seen : List N} {level : List (N × List N)}
      (asked : level.map Prod.fst = frontier) (done : (sweep level [] seen).1 = []) :
      Walk frontier seen [level]
  | more {frontier seen : List N} {level : List (N × List N)} {rest : List (List (N × List N))}
      (asked : level.map Prod.fst = frontier) (some_ : (sweep level [] seen).1 ≠ [])
      (below : Walk (sweep level [] seen).1 (sweep level [] seen).2 rest) :
      Walk frontier seen (level :: rest)

theorem discover_swept (named next seen : List N) :
    Swept (· ∈ named) next seen (discover named next seen).1 (discover named next seen).2 := by
  induction named generalizing next seen with
  | nil => exact (Swept.nil next seen).congr (by simp)
  | cons n rest ih =>
    unfold discover
    by_cases old : n ∈ seen
    · rw [if_pos old]
      exact ((swept_old next old).trans (ih next seen)).congr (by simp)
    · rw [if_neg old]
      exact ((swept_one next old).trans (ih _ _)).congr (by simp)

theorem sweep_swept (level : List (N × List N)) (next seen : List N) :
    Swept (fun n => ∃ answer ∈ level, n ∈ answer.2) next seen (sweep level next seen).1
      (sweep level next seen).2 := by
  induction level generalizing next seen with
  | nil => exact (Swept.nil next seen).congr (by simp)
  | cons answer rest ih =>
    exact ((discover_swept answer.2 next seen).trans (ih _ _)).congr (by simp)

section Walks
variable {frontier seen : List N} {record : List (List (N × List N))}

theorem walk_nodup (walk : Walk frontier seen record) (distinct : frontier.Nodup)
    (inside : ∀ n ∈ frontier, n ∈ seen) :
    (nodes record).Nodup ∧ ∀ n ∈ nodes record, n ∈ frontier ∨ n ∉ seen := by
  induction walk with
  | @last frontier seen level asked done =>
    have all : nodes [level] = frontier := by simp [nodes, asked]
    rw [all]
    exact ⟨distinct, fun n => Or.inl⟩
  | @more frontier seen level rest asked some_ below ih =>
    have swept := sweep_swept level [] seen
    have fresh : ∀ n ∈ (sweep level [] seen).1, n ∉ seen := by
      intro n among
      rcases (swept.mem_next n).mp among with none_ | new
      · cases none_
      · exact new.2
    obtain ⟨later, where_⟩ := ih (swept.nodup_next (by simp) List.nodup_nil) fun n among => by
      rcases (swept.mem_next n).mp among with none_ | new
      · cases none_
      · exact (swept.mem_seen n).mpr (Or.inr new.1)
    have unseen : ∀ n ∈ nodes rest, n ∉ seen := by
      intro n among
      rcases where_ n among with next | new
      · exact fresh n next
      · exact fun old => new ((swept.mem_seen n).mpr (Or.inl old))
    rw [nodes_cons, asked]
    constructor
    · exact distinct.append later fun n first second => unseen n second (inside n first)
    · intro n among
      rcases List.mem_append.mp among with first | second
      · exact Or.inl first
      · exact Or.inr (unseen n second)

theorem walk_nonempty (walk : Walk frontier seen record) (some_ : frontier ≠ []) :
    ∀ level ∈ record, level ≠ [] := by
  induction walk with
  | @last frontier seen level asked done =>
    intro l among empty
    obtain rfl := List.mem_singleton.mp among
    exact some_ (by rw [← asked, empty]; rfl)
  | @more frontier seen level rest asked next below ih =>
    intro l among empty
    rcases List.mem_cons.mp among with rfl | later
    · exact some_ (by rw [← asked, empty]; rfl)
    · exact ih next l later empty

variable {edge : N → N → Prop} {root : N} {k : Nat}

theorem reached_next (reached : Reached edge root k frontier seen) {level : List (N × List N)}
    (asked : level.map Prod.fst = frontier)
    (answers : ∀ answer ∈ level, ∀ n, n ∈ answer.2 ↔ edge answer.1 n) :
    Reached edge root (k + 1) (sweep level [] seen).1 (sweep level [] seen).2 := by
  have swept := sweep_swept level [] seen
  have named : ∀ n, (∃ answer ∈ level, n ∈ answer.2) ↔
      ∃ before, AtLevel edge root k before ∧ edge before n := by
    intro n
    constructor
    · rintro ⟨answer, among, inside⟩
      have first : answer.1 ∈ frontier := asked ▸ List.mem_map_of_mem among
      exact ⟨answer.1, (reached.frontier _).mp first, (answers answer among n).mp inside⟩
    · rintro ⟨before, level_, out⟩
      have first := (reached.frontier before).mpr level_
      rw [← asked] at first
      obtain ⟨answer, among, rfl⟩ := List.mem_map.mp first
      exact ⟨answer, among, (answers answer among n).mpr out⟩
  have far : ∀ n, n ∉ seen ↔ ∀ j ≤ k, ¬ Steps edge root j n := by
    intro n
    rw [reached.seen]
    push Not
    rfl
  constructor
  · intro n
    rw [swept.mem_next, atLevel_succ, named, far]
    simp
  · intro n
    rw [swept.mem_seen, named, reached.seen]
    constructor
    · rintro (⟨j, le, steps⟩ | ⟨before, level_, out⟩)
      · exact ⟨j, by omega, steps⟩
      · exact ⟨k + 1, Nat.le_refl _, level_.1.step out⟩
    · rintro ⟨j, le, steps⟩
      obtain ⟨i, near, level_⟩ := exists_atLevel steps
      by_cases early : i ≤ k
      · exact Or.inl ⟨i, early, level_.1⟩
      · obtain rfl : i = k + 1 := by omega
        exact Or.inr (atLevel_succ.mp level_).1

/-- The levels of a record are the levels of the graph, from the frontier on. -/
theorem walk_levels (walk : Walk frontier seen record)
    (reached : Reached edge root k frontier seen)
    (answers : ∀ level ∈ record, ∀ answer ∈ level, ∀ n, n ∈ answer.2 ↔ edge answer.1 n) :
    (∀ j, ∀ level, record[j]? = some level →
      ∀ n, n ∈ level.map Prod.fst ↔ AtLevel edge root (k + j) n) ∧
    ∀ n, ¬ AtLevel edge root (k + record.length) n := by
  induction walk generalizing k with
  | @last frontier seen level asked done =>
    have next := reached_next reached asked (answers level (by simp))
    constructor
    · intro j l there n
      cases j with
      | zero =>
        cases there
        rw [asked]
        exact reached.frontier n
      | succ j => simp at there
    · intro n at_
      have among := (next.frontier n).mpr at_
      rw [done] at among
      cases among
  | @more frontier seen level rest asked some_ below ih =>
    have next := reached_next reached asked (answers level (by simp))
    obtain ⟨later, ends⟩ := ih next fun l among => answers l (List.mem_cons_of_mem _ among)
    constructor
    · intro j l there n
      cases j with
      | zero =>
        cases there
        rw [asked]
        exact reached.frontier n
      | succ j =>
        have deeper := later j l (by simpa using there) n
        rwa [show k + 1 + j = k + (j + 1) by omega] at deeper
    · intro n
      rw [List.length_cons, show k + (rest.length + 1) = k + 1 + rest.length by omega]
      exact ends n

theorem walk_reaches (walk : Walk [root] [root] record)
    (answers : ∀ level ∈ record, ∀ answer ∈ level, ∀ n, n ∈ answer.2 ↔ edge answer.1 n) (n : N) :
    n ∈ nodes record ↔ Relation.ReflTransGen edge root n := by
  obtain ⟨levels, ends⟩ := walk_levels walk (reached_root edge root) answers
  rw [exists_steps]
  constructor
  · intro among
    obtain ⟨answer, inside, rfl⟩ := List.mem_map.mp among
    obtain ⟨level, there, here⟩ := List.mem_flatten.mp inside
    obtain ⟨j, at_⟩ := List.getElem?_of_mem there
    exact ⟨0 + j, ((levels j level at_ answer.1).mp (List.mem_map_of_mem here)).1⟩
  · rintro ⟨k, steps⟩
    obtain ⟨j, -, level⟩ := exists_atLevel steps
    have inside : j < record.length := by
      by_contra outside
      obtain ⟨before, past⟩ := atLevel_before level (Nat.le_of_not_lt outside)
      exact ends before (by rwa [Nat.zero_add])
    have here := (levels j record[j] (List.getElem?_eq_getElem inside) n).mpr
      (by rwa [Nat.zero_add])
    obtain ⟨answer, among, rfl⟩ := List.mem_map.mp here
    exact List.mem_map_of_mem (List.mem_flatten.mpr ⟨_, List.getElem_mem inside, among⟩)

/-- A record has as many levels as the graph below the root. -/
theorem walk_depth (walk : Walk [root] [root] record)
    (answers : ∀ level ∈ record, ∀ answer ∈ level, ∀ n, n ∈ answer.2 ↔ edge answer.1 n) (k : Nat) :
    k < record.length ↔ ∃ n, AtLevel edge root k n := by
  obtain ⟨levels, ends⟩ := walk_levels walk (reached_root edge root) answers
  constructor
  · intro inside
    obtain ⟨answer, among⟩ := List.exists_mem_of_ne_nil _
      (walk_nonempty walk (by simp) record[k] (List.getElem_mem inside))
    have here := (levels k record[k] (List.getElem?_eq_getElem inside) answer.1).mp
      (List.mem_map_of_mem among)
    exact ⟨answer.1, by rwa [Nat.zero_add] at here⟩
  · rintro ⟨n, level⟩
    by_contra outside
    obtain ⟨before, past⟩ := atLevel_before level (Nat.le_of_not_lt outside)
    exact ends before (by rwa [Nat.zero_add])

end Walks
end Search
end BreadthFirst

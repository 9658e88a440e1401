import Mathlib.Data.List.Basic

/- A map as a list of pairs in strictly ascending key order, and the insertion that
   replaces what is under the key. -/
namespace SortedMap
universe u v
variable {K : Type u} {V : Type v} [LT K] [DecidableLT K] [DecidableEq K]

def put (k : K) (v : V) : List (K × V) → List (K × V)
  | [] => [(k, v)]
  | (k', v') :: rest =>
    if k = k' then (k, v) :: rest
    else if k < k' then (k, v) :: (k', v') :: rest
    else (k', v') :: put k v rest

section
variable {k other : K} {v w : V} {entries : List (K × V)}

theorem mem_put {entry : K × V} (member : entry ∈ put k v entries) :
    entry = (k, v) ∨ entry ∈ entries := by
  induction entries with
  | nil => exact Or.inl (by simpa [put] using member)
  | cons first rest ih =>
    obtain ⟨k', v'⟩ := first
    rw [put] at member
    split at member
    · rcases List.mem_cons.mp member with rfl | later
      · exact Or.inl rfl
      · exact Or.inr (List.mem_cons_of_mem _ later)
    · split at member
      · rcases List.mem_cons.mp member with rfl | later
        · exact Or.inl rfl
        · exact Or.inr later
      · rcases List.mem_cons.mp member with rfl | later
        · exact Or.inr List.mem_cons_self
        · rcases ih later with rfl | below
          · exact Or.inl rfl
          · exact Or.inr (List.mem_cons_of_mem _ below)

theorem put_sorted [Trans (α := K) (· < ·) (· < ·) (· < ·)]
    [Std.Trichotomous (· < · : K → K → Prop)]
    (sorted : (entries.map Prod.fst).Pairwise (· < ·)) :
    ((put k v entries).map Prod.fst).Pairwise (· < ·) := by
  induction entries with
  | nil => simp [put]
  | cons first rest ih =>
    obtain ⟨k', v'⟩ := first
    rw [List.map_cons, List.pairwise_cons] at sorted
    rw [put]
    split
    · rename_i same
      subst same
      exact List.pairwise_cons.mpr sorted
    · rename_i differ
      split
      · rename_i less
        refine List.pairwise_cons.mpr ⟨?_, List.pairwise_cons.mpr sorted⟩
        intro key member
        rcases List.mem_cons.mp member with rfl | later
        · exact less
        · exact Trans.trans less (sorted.1 key later)
      · rename_i more
        refine List.pairwise_cons.mpr ⟨?_, ih sorted.2⟩
        intro key member
        obtain ⟨entry, inside, rfl⟩ := List.mem_map.mp member
        rcases mem_put inside with rfl | later
        · by_contra notLess
          exact differ (Std.Trichotomous.trichotomous _ _ more notLess)
        · exact sorted.1 entry.1 (List.mem_map_of_mem later)

variable [BEq K] [LawfulBEq K]

theorem lookup_put_self (k : K) (v : V) (entries : List (K × V)) :
    (put k v entries).lookup k = some v := by
  induction entries with
  | nil => simp [put]
  | cons first rest ih =>
    obtain ⟨k', v'⟩ := first
    rw [put]
    split
    · simp
    · rename_i differ
      split
      · simp
      · rw [List.lookup_cons, beq_false_of_ne differ]
        exact ih

theorem lookup_put_ne (differ : other ≠ k) :
    (put k v entries).lookup other = entries.lookup other := by
  induction entries with
  | nil => rw [put, List.lookup_cons, beq_false_of_ne differ]
  | cons first rest ih =>
    obtain ⟨k', v'⟩ := first
    rw [put]
    split
    · rename_i same
      subst same
      rw [List.lookup_cons, List.lookup_cons, beq_false_of_ne differ]
    · split
      · rw [List.lookup_cons, beq_false_of_ne differ]
      · rw [List.lookup_cons, List.lookup_cons, ih]

theorem lookup_put : (put k v entries).lookup other =
    if other = k then some v else entries.lookup other := by
  by_cases same : other = k
  · rw [if_pos same, same, lookup_put_self]
  · rw [if_neg same, lookup_put_ne same]

theorem key_put (member : other ∈ entries.map Prod.fst) :
    other ∈ (put k v entries).map Prod.fst := by
  obtain ⟨entry, inside, rfl⟩ := List.mem_map.mp member
  have found : ((put k v entries).lookup entry.1).isSome := by
    rw [lookup_put]
    split
    · rfl
    · exact List.lookup_isSome_iff.mpr ⟨entry, inside, by simp⟩
  obtain ⟨other, there, same⟩ := List.lookup_isSome_iff.mp found
  rw [eq_of_beq same]
  exact List.mem_map_of_mem there

omit [LT K] [DecidableLT K] [DecidableEq K] in
theorem key_of_lookup (found : entries.lookup k = some v) : k ∈ entries.map Prod.fst := by
  obtain ⟨before, after, rfl, -⟩ := List.lookup_eq_some_iff.mp found
  simp

variable [Trans (α := K) (· < ·) (· < ·) (· < ·)] [Std.Irrefl (· < · : K → K → Prop)]

omit [DecidableLT K] [DecidableEq K] [BEq K] [LawfulBEq K] in
theorem not_lt_first {k' : K} {keys : List K} (sorted : (k' :: keys).Pairwise (· < ·))
    (member : k ∈ keys) : ¬ k < k' := by
  intro less
  exact Std.Irrefl.irrefl _ (Trans.trans ((List.pairwise_cons.mp sorted).1 k member) less)

theorem put_of_lookup (sorted : (entries.map Prod.fst).Pairwise (· < ·))
    (found : entries.lookup k = some v) : put k v entries = entries := by
  induction entries with
  | nil => cases found
  | cons first rest ih =>
    obtain ⟨k', v'⟩ := first
    rw [put]
    by_cases same : k = k'
    · subst same
      rw [List.lookup_cons_self] at found
      rw [if_pos rfl, Option.some.inj found]
    · rw [List.lookup_cons, beq_false_of_ne same] at found
      rw [if_neg same, if_neg (not_lt_first sorted (key_of_lookup found)),
        ih (List.pairwise_cons.mp sorted).2 found]

omit [BEq K] [LawfulBEq K] in
theorem keys_put_of_mem (sorted : (entries.map Prod.fst).Pairwise (· < ·))
    (member : k ∈ entries.map Prod.fst) :
    (put k v entries).map Prod.fst = entries.map Prod.fst := by
  induction entries with
  | nil => cases member
  | cons first rest ih =>
    obtain ⟨k', v'⟩ := first
    rw [put]
    by_cases same : k = k'
    · rw [if_pos same, same]
      rfl
    · have later := (List.mem_cons.mp member).resolve_left same
      rw [if_neg same, if_neg (not_lt_first sorted later), List.map_cons,
        ih (List.pairwise_cons.mp sorted).2 later]
      rfl

end
end SortedMap

import Mathlib.Data.List.AList
import Mathlib.Data.List.Nodup
import Mathlib.Data.List.NodupEquivFin

/- Answers gathered in a map under their keys and handed out along a list of keys. Each
   entry is handed out once: a key that comes again gets the fallback, like a key that the
   map never had. -/
namespace HandOut
variable {κ β : Type} [DecidableEq κ]

def handOut (fallback : κ → β) : List κ → AList (fun _ : κ => β) → List β
  | [], _ => []
  | key :: rest, found =>
    (found.lookup key).getD (fallback key) :: handOut fallback rest (found.erase key)

/-- The map of a list of answers; of two under one key the later stays. -/
def collect (key : β → κ) (answers : List β) : AList (fun _ : κ => β) :=
  answers.foldl (fun found a => found.insert (key a) a) ∅

def Filed (name : β → κ) (found : AList (fun _ : κ => β)) : Prop :=
  ∀ k a, found.lookup k = some a → name a = k

variable {fallback : κ → β} {name : β → κ} {found : AList (fun _ : κ => β)}

theorem filed_empty : Filed name (∅ : AList (fun _ : κ => β)) := by
  intro k a here
  simp at here

theorem Filed.insert (filed : Filed name found) {k : κ} {a : β} (named : name a = k) :
    Filed name (found.insert k a) := by
  intro other b here
  by_cases same : other = k
  · subst same
    rw [AList.lookup_insert, Option.some.injEq] at here
    exact here ▸ named
  · rw [AList.lookup_insert_ne same] at here
    exact filed other b here

theorem handOut_getElem? (fallback : κ → β) (keys : List κ) (found : AList (fun _ : κ => β))
    (i : Nat) : (handOut fallback keys found)[i]? = keys[i]?.map fun k =>
      if k ∈ keys.take i then fallback k else (found.lookup k).getD (fallback k) := by
  induction keys generalizing found i with
  | nil => simp [handOut]
  | cons key rest ih =>
    cases i with
    | zero => simp [handOut]
    | succ i =>
      simp only [handOut, List.getElem?_cons_succ, ih, List.take_succ_cons]
      congr 1
      funext k
      by_cases same : k = key
      · subst same
        simp
      · simp [same, AList.lookup_erase_ne same]

theorem handOut_empty (fallback : κ → β) (keys : List κ) :
    handOut fallback keys ∅ = keys.map fallback := by
  apply List.ext_getElem?
  intro i
  rw [handOut_getElem?, List.getElem?_map]
  simp

/-- The second occurrence of a key finds nothing. -/
theorem handOut_again {keys : List κ} {i j : Nat} {k : κ} (earlier : i < j)
    (first : keys[i]? = some k) (second : keys[j]? = some k) :
    (handOut fallback keys found)[j]? = some (fallback k) := by
  obtain ⟨inside, here⟩ := List.getElem?_eq_some_iff.mp first
  have before : k ∈ keys.take j :=
    List.mem_take_iff_getElem.mpr ⟨i, by omega, here⟩
  simp [handOut_getElem?, second, before]

theorem handOut_named (filed : Filed name found) (named : ∀ k, name (fallback k) = k)
    (keys : List κ) : (handOut fallback keys found).map name = keys := by
  apply List.ext_getElem?
  intro i
  rw [List.getElem?_map, handOut_getElem?]
  rcases keys[i]? with _ | k
  · rfl
  · simp only [Option.map_some, Option.some.injEq]
    split
    · exact named k
    · rcases here : found.lookup k with _ | a
      · exact named k
      · exact filed k a here

theorem lookup_foldl_insert (key : β → κ) (answers : List β) (found : AList (fun _ : κ => β))
    (k : κ) : (answers.foldl (fun found a => found.insert (key a) a) found).lookup k =
      (answers.reverse.find? fun a => key a = k).or (found.lookup k) := by
  induction answers generalizing found with
  | nil => simp
  | cons a rest ih =>
    rw [List.foldl_cons, ih, List.reverse_cons, List.find?_append]
    rcases later : rest.reverse.find? fun a => key a = k with _ | b
    · by_cases same : key a = k
      · subst same
        simp
      · simp [same, AList.lookup_insert_ne (Ne.symm same)]
    · simp

theorem lookup_collect (key : β → κ) (answers : List β) (k : κ) :
    (collect key answers).lookup k = answers.reverse.find? fun a => key a = k := by
  simp [collect, lookup_foldl_insert]

theorem collect_mem {key : β → κ} {answers : List β} {k : κ} {a : β}
    (here : (collect key answers).lookup k = some a) : a ∈ answers ∧ key a = k := by
  rw [lookup_collect] at here
  exact ⟨List.mem_reverse.mp (List.mem_of_find?_eq_some here), by simpa using List.find?_some here⟩

theorem collect_none {key : β → κ} {answers : List β} {k : κ}
    (nowhere : (collect key answers).lookup k = none) : k ∉ answers.map key := by
  rw [lookup_collect, List.find?_eq_none] at nowhere
  intro member
  obtain ⟨a, given, same⟩ := List.mem_map.mp member
  exact nowhere a (List.mem_reverse.mpr given) (by simpa using same)

theorem collect_filed (key : β → κ) (answers : List β) : Filed key (collect key answers) :=
  fun _ _ here => (collect_mem here).2

theorem first_place {keys : List κ} {k : κ} (member : k ∈ keys) :
    ∃ i : Nat, keys[i]? = some k ∧ k ∉ keys.take i := by
  induction keys with
  | nil => cases member
  | cons key rest ih =>
    by_cases same : k = key
    · exact ⟨0, by simp [same], by simp⟩
    · obtain ⟨i, here, fresh⟩ := ih ((List.mem_cons.mp member).resolve_left same)
      exact ⟨i + 1, by simpa using here, by simp [same, fresh]⟩

theorem two_places {keys : List κ} {k : κ} (twice : 1 < keys.count k) :
    ∃ i j : Nat, i < j ∧ keys[i]? = some k ∧ keys[j]? = some k := by
  have again : List.Duplicate k keys := List.duplicate_iff_two_le_count.mpr twice
  obtain ⟨i, j, earlier, first, second⟩ := List.duplicate_iff_exists_distinct_get.mp again
  refine ⟨i, j, earlier, ?_, ?_⟩
  · simp [first]
  · simp [second]

theorem twice_of_again {keys : List κ} {k : κ} {j : Nat} (here : keys[j]? = some k)
    (before : k ∈ keys.take j) : 1 < keys.count k := by
  obtain ⟨inside, same⟩ := List.getElem?_eq_some_iff.mp here
  have after : k ∈ keys.drop j := by
    rw [List.drop_eq_getElem_cons inside, same]
    exact List.mem_cons_self ..
  have parts : keys.count k = (keys.take j).count k + (keys.drop j).count k := by
    rw [← List.count_append, List.take_append_drop]
  have := List.count_pos_iff.mpr before
  have := List.count_pos_iff.mpr after
  omega

theorem eq_of_count_le_one {key : β → κ} {answers : List β} {k : κ} {a b : β}
    (once : (answers.map key).count k ≤ 1) (first : a ∈ answers) (second : b ∈ answers)
    (here : key a = k) (there : key b = k) : a = b := by
  have one : (answers.filter fun c => key c = k).length ≤ 1 := by
    rw [← List.countP_eq_length_filter]
    simpa [List.count, List.countP_map, Function.comp_def, beq_eq_decide] using once
  have firstIn : a ∈ answers.filter fun c => key c = k := by simp [first, here]
  have secondIn : b ∈ answers.filter fun c => key c = k := by simp [second, there]
  rcases only : answers.filter fun c => key c = k with _ | ⟨c, _ | ⟨d, rest⟩⟩
  · simp [only] at firstIn
  · rw [only, List.mem_singleton] at firstIn secondIn
    exact firstIn.trans secondIn.symm
  · simp [only] at one

theorem handOut_nodup {keys : List κ} (distinct : keys.Nodup) :
    handOut fallback keys found = keys.map fun k => (found.lookup k).getD (fallback k) := by
  apply List.ext_getElem?
  intro i
  rw [handOut_getElem?, List.getElem?_map]
  cases here : keys[i]? with
  | none => rfl
  | some k =>
    have once : k ∉ keys.take i := fun before => by
      have twice := twice_of_again here before
      have atMost := List.nodup_iff_count_le_one.mp distinct k
      omega
    rw [Option.map_some, if_neg once, Option.map_some]

/-- A map filled so that of two answers under one key the earlier stays. -/
def keepFirst (key : β → κ) (answers : List β) (found : AList (fun _ : κ => β)) :
    AList (fun _ : κ => β) :=
  answers.foldl (fun found a =>
    if (found.lookup (key a)).isSome then found else found.insert (key a) a) found

theorem lookup_keepFirst (key : β → κ) (answers : List β) (found : AList (fun _ : κ => β))
    (k : κ) : (keepFirst key answers found).lookup k =
      (found.lookup k).or (answers.find? fun a => key a = k) := by
  unfold keepFirst
  induction answers generalizing found with
  | nil => simp
  | cons a rest ih =>
    rw [List.foldl_cons, ih]
    by_cases same : key a = k
    · subst same
      cases here : found.lookup (key a) with
      | some b => simp [here]
      | none => simp
    · rw [List.find?_cons_of_neg (by simpa using same)]
      split
      · rfl
      · rw [AList.lookup_insert_ne (Ne.symm same)]

end HandOut

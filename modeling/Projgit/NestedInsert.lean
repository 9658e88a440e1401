import Projgit.DotGit

/-!
What the nested insertion does to the tree of synthetic entries: the node at its path, the
nodes above it, and the frame.
-/
namespace ProjgitProjection
open Utf8Bytes ProjgitStore SlashPath SortedMap

def nodeAt : SyntheticEntry → List Bytes → Option SyntheticEntry
  | e, [] => some e
  | .directory children, name :: rest => (children.lookup name).bind fun child => nodeAt child rest
  | .file _ _, _ :: _ | .symlink _, _ :: _ => none

def SyntheticEntry.IsDirectory (e : SyntheticEntry) : Prop := ∃ children, e = .directory children

/-- What stands above a path, as far as anything does, is directories. -/
def Open (e : SyntheticEntry) (path : List Bytes) : Prop :=
  ∀ above below, path = above ++ below → below ≠ [] → ∀ node, nodeAt e above = some node →
    node.IsDirectory

structure Inserted (content : Bytes) (path : List Bytes) (e e' : SyntheticEntry) : Prop where
  leaf : nodeAt e' path = some (.file content 0o100644)
  above : ∀ front under, path = front ++ under → under ≠ [] →
    ∃ children', nodeAt e' front = some (.directory children') ∧
      ∀ children, nodeAt e front = some (.directory children) →
        children.map Prod.fst ⊆ children'.map Prod.fst
  below : ∀ under, under ≠ [] → nodeAt e' (path ++ under) = none
  apart : ∀ other, ¬ other <+: path → ¬ path <+: other → nodeAt e' other = nodeAt e other

section
variable {e e' : SyntheticEntry} {content : Bytes} {path : List Bytes}

theorem nodeAt_append (e : SyntheticEntry) (front back : List Bytes) :
    nodeAt e (front ++ back) = (nodeAt e front).bind fun node => nodeAt node back := by
  induction front generalizing e with
  | nil => rfl
  | cons name rest ih =>
    cases e with
    | file | symlink => rfl
    | directory children =>
      simp only [List.cons_append, nodeAt]
      cases children.lookup name with
      | none => rfl
      | some child => exact ih child

theorem nodeAt_directory_cons (children : List (Bytes × SyntheticEntry)) (name : Bytes)
    (rest : List Bytes) : nodeAt (.directory children) (name :: rest) =
      (children.lookup name).bind fun child => nodeAt child rest := rfl

theorem directory_above {front back : List Bytes} (some_ : back ≠ [])
    (found : (nodeAt e (front ++ back)).isSome) :
    ∃ children, nodeAt e front = some (.directory children) := by
  rw [nodeAt_append] at found
  cases here : nodeAt e front with
  | none => simp [here] at found
  | some node =>
    obtain ⟨name, rest, rfl⟩ := List.exists_cons_of_ne_nil some_
    cases node with
    | directory children => exact ⟨children, rfl⟩
    | file | symlink => simp [here, nodeAt] at found

theorem nodeAt_put_self (children : List (Bytes × SyntheticEntry)) (name : Bytes)
    (child : SyntheticEntry) (rest : List Bytes) :
    nodeAt (.directory (put name child children)) (name :: rest) = nodeAt child rest := by
  rw [nodeAt_directory_cons, lookup_put_self, Option.bind_some]

theorem nodeAt_put_ne {name other : Bytes} (differ : other ≠ name)
    (children : List (Bytes × SyntheticEntry)) (child : SyntheticEntry) (rest : List Bytes) :
    nodeAt (.directory (put name child children)) (other :: rest) =
      nodeAt (.directory children) (other :: rest) := by
  rw [nodeAt_directory_cons, lookup_put_ne differ, nodeAt_directory_cons]

/-- Below a name, a missing child and an empty directory have the same nothing. -/
theorem nodeAt_child (children : List (Bytes × SyntheticEntry)) (name : Bytes)
    {rest : List Bytes} (some_ : rest ≠ []) :
    nodeAt (.directory children) (name :: rest) =
      nodeAt ((children.lookup name).getD SortedEntry.directory.1) rest := by
  rw [nodeAt_directory_cons]
  cases children.lookup name with
  | some child => rfl
  | none =>
    obtain ⟨next, more, rfl⟩ := List.exists_cons_of_ne_nil some_
    rfl

theorem insertNested_some (content : Bytes) (some_ : path ≠ []) (open_ : Open e path) :
    ∃ e', insertNested content path e = some e' := by
  induction path generalizing e with
  | nil => exact absurd rfl some_
  | cons name rest ih =>
    obtain ⟨children, rfl⟩ := open_ [] (name :: rest) rfl (by simp) e rfl
    cases rest with
    | nil => exact ⟨_, rfl⟩
    | cons next more =>
      have deeper : Open ((children.lookup name).getD SortedEntry.directory.1) (next :: more) := by
        intro above below split nonempty node found
        by_cases start : above = []
        · subst start
          cases there : children.lookup name with
          | none =>
            rw [there] at found
            cases found
            exact ⟨[], rfl⟩
          | some child =>
            rw [there] at found
            cases found
            refine open_ [name] (next :: more) rfl (by simp) child ?_
            rw [nodeAt_directory_cons, there]
            rfl
        · refine open_ (name :: above) below (by rw [split, List.cons_append]) nonempty node ?_
          rw [nodeAt_child children name start]
          exact found
      obtain ⟨child, inserted⟩ := ih (by simp) deeper
      exact ⟨_, by simp only [insertNested, inserted, Option.bind_eq_bind, Option.bind_some]; rfl⟩

/-- By induction on the path: the child that the first name leads to is the tree of the rest. -/
theorem insertNested_inserted (done : insertNested content path e = some e') :
    Inserted content path e e' := by
  induction path generalizing e e' with
  | nil => cases done
  | cons name rest ih =>
    obtain ⟨children, child, rfl, rfl, last | ⟨more, deeper⟩⟩ := insertNested_cons rfl done
    · obtain ⟨rfl, rfl⟩ := last
      refine ⟨nodeAt_put_self children name _ [], ?_, ?_, ?_⟩
      · intro front under split nonempty
        obtain rfl : front = [] := by
          cases front with
          | nil => rfl
          | cons first tail => simp_all
        exact ⟨_, rfl, fun _ same => by cases same; exact fun key member => key_put member⟩
      · intro under nonempty
        obtain ⟨next, tail, rfl⟩ := List.exists_cons_of_ne_nil nonempty
        exact nodeAt_put_self children name _ (next :: tail)
      · intro other notAbove notBelow
        cases other with
        | nil => exact absurd (List.nil_prefix) notAbove
        | cons first tail =>
          refine nodeAt_put_ne ?_ children _ tail
          rintro rfl
          exact notBelow (by simp)
    · have inner := ih deeper
      refine ⟨(nodeAt_put_self children name child rest).trans inner.leaf, ?_, ?_, ?_⟩
      · intro front under split nonempty
        cases front with
        | nil => exact ⟨_, rfl, fun _ same => by cases same; exact fun key member => key_put member⟩
        | cons first tail =>
          obtain ⟨rfl, rest_split⟩ := List.cons.inj split
          obtain ⟨children', there, keys⟩ := inner.above tail under rest_split nonempty
          refine ⟨children', (nodeAt_put_self children _ child tail).trans there, ?_⟩
          intro before found
          apply keys before
          rw [nodeAt_directory_cons] at found
          obtain ⟨own, own_there, own_found⟩ := Option.bind_eq_some_iff.mp found
          rw [own_there]
          exact own_found
      · intro under nonempty
        exact (nodeAt_put_self children name child (rest ++ under)).trans (inner.below under nonempty)
      · intro other notAbove notBelow
        cases other with
        | nil => exact absurd (List.nil_prefix) notAbove
        | cons first tail =>
          by_cases same : first = name
          · subst same
            have apart := inner.apart tail (fun p => notAbove (by simpa using p))
              (fun p => notBelow (by simpa using p))
            have some_ : tail ≠ [] := by
              rintro rfl
              exact notAbove (by simp)
            rw [nodeAt_put_self, apart, nodeAt_child children first some_]
          · exact nodeAt_put_ne same children child tail

theorem insertNested_again (sorted : e.Sorted)
    (there : nodeAt e path = some (.file content 0o100644)) (some_ : path ≠ []) :
    insertNested content path e = some e := by
  induction path generalizing e with
  | nil => exact absurd rfl some_
  | cons name rest ih =>
    cases e with
    | file | symlink => cases there
    | directory children =>
      have keys : (children.map Prod.fst).Pairwise (· < ·) := by
        cases sorted with
        | directory keys each => exact keys
      rw [nodeAt_directory_cons] at there
      obtain ⟨child, found, below⟩ := Option.bind_eq_some_iff.mp there
      cases rest with
      | nil =>
        cases below
        rw [insertNested, SortedEntry.file, put_of_lookup keys found]
      | cons next more =>
        have inner := ih (sorted_of_lookup sorted found) below (by simp)
        simp only [insertNested, found, Option.getD_some, inner, Option.bind_eq_bind,
          Option.bind_some, Option.pure_def, put_of_lookup keys found]

end
end ProjgitProjection

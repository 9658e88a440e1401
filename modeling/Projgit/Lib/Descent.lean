import Mathlib.Data.List.Basic

/- Following names from node to node, in any graph whose directories name their
   children, and stopping at the first name that leads nowhere. -/
namespace Descent
variable {N K : Type}

/-- The names already followed and the one that failed: the directory does not have it,
    or it was asked of something that is not a directory. -/
inductive Stop (K : Type) where
  | absent (walked : List K) (name : K)
  | blocked (walked : List K) (name : K)

/-- `children` is `none` on what is not a directory. -/
def follow (children : N → Option (K → Option N)) (walked : List K) (node : N) :
    List K → Except (Stop K) N
  | [] => .ok node
  | name :: rest =>
    match children node with
    | none => .error (.blocked walked name)
    | some named =>
      match named name with
      | none => .error (.absent walked name)
      | some child => follow children (walked ++ [name]) child rest

def Asked (children : N → Option (K → Option N)) (P : N → Prop) (node : N) : List K → Prop
  | [] => True
  | name :: rest => P node ∧ ∀ named child, children node = some named →
      named name = some child → Asked children P child rest

section
variable {children : N → Option (K → Option N)} {walked : List K} {node : N} {name : K}
  {rest : List K}

theorem follow_blocked (leaf : children node = none) :
    follow children walked node (name :: rest) = .error (.blocked walked name) := by
  simp only [follow, leaf]

theorem follow_absent {named : K → Option N} (directory : children node = some named)
    (absent : named name = none) :
    follow children walked node (name :: rest) = .error (.absent walked name) := by
  simp only [follow, directory, absent]

theorem follow_child {named : K → Option N} {child : N} (directory : children node = some named)
    (found : named name = some child) :
    follow children walked node (name :: rest) = follow children (walked ++ [name]) child rest := by
  simp only [follow, directory, found]

theorem Asked.mono {P Q : N → Prop} {names : List K} (asked : Asked children P node names)
    (weaker : ∀ n, P n → Q n) : Asked children Q node names := by
  induction names generalizing node with
  | nil => trivial
  | cons name rest ih =>
    obtain ⟨here, below⟩ := asked
    exact ⟨weaker node here, fun named child directory found =>
      ih (below named child directory found)⟩

/-- What passes from a node to its children holds wherever a name is asked for. -/
theorem asked_of_inherited {P : N → Prop} {names : List K} (start : P node)
    (inherits : ∀ n named name child, P n → children n = some named → named name = some child →
      P child) : Asked children P node names := by
  induction names generalizing node with
  | nil => trivial
  | cons name rest ih =>
    exact ⟨start, fun named child directory found =>
      ih (inherits node named name child start directory found)⟩

end
end Descent

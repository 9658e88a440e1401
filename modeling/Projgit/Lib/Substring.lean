import Mathlib.Data.List.Infix

/- Where a word can stand in a longer text: pieces separated by a character that the word
   lacks hold it one at a time. -/
namespace Substring
variable {α : Type}

theorem infix_split {c : α} {word before after : List α} (lacks : c ∉ word) :
    word <:+: before ++ c :: after ↔ word <:+: before ∨ word <:+: after := by
  constructor
  · rintro ⟨left, right, same⟩
    rw [List.append_assoc, List.append_eq_append_iff] at same
    rcases same with ⟨gap, rfl, tail⟩ | ⟨gap, rfl, tail⟩
    · -- The word starts in the first piece, so it must also end there.
      rw [List.append_eq_append_iff] at tail
      rcases tail with ⟨rest, rfl, -⟩ | ⟨rest, rfl, tail⟩
      · exact Or.inl ⟨left, rest, by simp⟩
      · cases rest with
        | nil => exact Or.inl ⟨left, [], by simp⟩
        | cons first rest =>
          obtain rfl : c = first := (List.cons.inj tail).1
          exact absurd (by simp) lacks
    · cases gap with
      | nil =>
        cases word with
        | nil => exact Or.inl (List.nil_infix)
        | cons first rest =>
          obtain rfl : c = first := (List.cons.inj tail).1
          exact absurd List.mem_cons_self lacks
      | cons first gap =>
        obtain ⟨-, rfl⟩ := List.cons.inj tail
        exact Or.inr ⟨gap, right, by simp⟩
  · rintro (inside | inside)
    · exact List.infix_append_of_infix_left inside
    · exact List.infix_append_of_infix_right (inside.trans (List.suffix_cons c after).isInfix)

theorem infix_cons_of_head {first other : α} {word text : List α} (differ : first ≠ other) :
    first :: word <:+: other :: text ↔ first :: word <:+: text := by
  rw [List.infix_cons_iff]
  refine or_iff_right ?_
  intro start
  exact differ (List.cons_prefix_cons.mp start).1

theorem not_infix_of_lacking {c : α} {word text : List α} (has : c ∈ word) (lacks : c ∉ text) :
    ¬ word <:+: text := fun inside => lacks (inside.subset has)

end Substring

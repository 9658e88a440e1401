import Mathlib

/- Text as a list of characters: ASCII case, a word dropped from the end, where a word is
   first found, and the last part between separators. -/
namespace PlainText
universe u
variable {α : Type u}

/-! ### ASCII case -/

theorem isUpper_iff (c : Char) : c.isUpper = true ↔ 65 ≤ c.toNat ∧ c.toNat ≤ 90 := by
  simp [Char.isUpper, UInt32.le_iff_toNat_le, ← Char.toNat_val]

theorem toNat_toLower (c : Char) :
    c.toLower.toNat = if 65 ≤ c.toNat ∧ c.toNat ≤ 90 then c.toNat + 32 else c.toNat := by
  by_cases upper : c.isUpper = true
  · have range := (isUpper_iff c).mp upper
    have valid : (c.toNat + 32).isValidChar := Or.inl (by omega)
    rw [if_pos range, Char.toLower_eq_of_isUpper upper, Char.toNat_ofNat, if_pos valid]
  · rw [if_neg (fun range => upper ((isUpper_iff c).mpr range)),
      Char.toLower_eq_of_not_isUpper upper]

theorem lower_eq_self_iff {c : Char} : c.toLower = c ↔ c.isUpper = false := by
  constructor
  · intro same
    rw [← same]
    exact Char.isUpper_toLower_eq_false c
  · intro lower
    exact Char.toLower_eq_of_not_isUpper (by simp [lower])

def NoLetter (c : Char) : Prop :=
  ¬ (65 ≤ c.toNat ∧ c.toNat ≤ 90) ∧ ¬ (97 ≤ c.toNat ∧ c.toNat ≤ 122)

instance (c : Char) : Decidable (NoLetter c) := instDecidableAnd

theorem lower_eq_iff {c d : Char} (plain : NoLetter d) : c.toLower = d ↔ c = d := by
  have value := toNat_toLower c
  constructor
  · rintro rfl
    apply Char.toNat_inj.mp
    unfold NoLetter at plain
    split at value <;> omega
  · rintro rfl
    apply Char.toNat_inj.mp
    rw [value, if_neg plain.1]

theorem map_lower_eq_self {s : List Char} :
    s.map Char.toLower = s ↔ ∀ c ∈ s, c.isUpper = false := by
  induction s with
  | nil => simp
  | cons c rest ih => simp [lower_eq_self_iff, ih]

theorem map_lower_lower (s : List Char) :
    (s.map Char.toLower).map Char.toLower = s.map Char.toLower := by
  rw [List.map_map]
  exact List.map_congr_left fun c _ => Char.toLower_toLower_eq_toLower c

theorem map_lower_eq_iff {s word : List Char} (plain : ∀ c ∈ word, NoLetter c) :
    s.map Char.toLower = word ↔ s = word := by
  induction s generalizing word with
  | nil => simp
  | cons c rest ih =>
    cases word with
    | nil => simp
    | cons d more =>
      simp only [List.mem_cons, forall_eq_or_imp] at plain
      rw [List.map_cons, List.cons_eq_cons, List.cons_eq_cons, lower_eq_iff plain.1,
        ih plain.2]

/-- A word without letters is found wherever it is found after lowercasing. -/
theorem infix_map_lower {s word : List Char} (plain : ∀ c ∈ word, NoLetter c) :
    word <:+: s.map Char.toLower ↔ word <:+: s := by
  rw [List.infix_map_iff]
  constructor
  · rintro ⟨l, inside, same⟩
    rwa [(map_lower_eq_iff plain).mp same.symm] at inside
  · intro inside
    exact ⟨word, inside, ((map_lower_eq_iff plain).mpr rfl).symm⟩

theorem mem_map_lower {s : List Char} {c : Char} (plain : NoLetter c) :
    c ∈ s.map Char.toLower ↔ c ∈ s := by
  rw [List.mem_map]
  constructor
  · rintro ⟨d, member, same⟩
    rwa [(lower_eq_iff plain).mp same] at member
  · intro member
    exact ⟨c, member, (lower_eq_iff plain).mpr rfl⟩

theorem rdropWhile_map_lower {s : List Char} {sep : Char} (plain : NoLetter sep) :
    (s.map Char.toLower).rdropWhile (· = sep) = (s.rdropWhile (· = sep)).map Char.toLower := by
  induction s using List.reverseRecOn with
  | nil => rfl
  | append_singleton front c ih =>
    rw [List.map_append, List.map_singleton]
    by_cases same : c = sep
    · have lowered : c.toLower = sep := (lower_eq_iff plain).mpr same
      rw [List.rdropWhile_concat_pos _ _ _ (by simpa using lowered), ih,
        List.rdropWhile_concat_pos _ _ _ (by simpa using same)]
    · have lowered : c.toLower ≠ sep := fun other => same ((lower_eq_iff plain).mp other)
      rw [List.rdropWhile_concat_neg _ _ _ (by simpa using lowered),
        List.rdropWhile_concat_neg _ _ _ (by simpa using same), List.map_append,
        List.map_singleton]

/-! ### The end of a text -/

section
variable {p : α → Bool} {s front back : List α}

theorem rdropWhile_append_all (all : ∀ c ∈ back, p c) :
    (front ++ back).rdropWhile p = front.rdropWhile p := by
  induction back using List.reverseRecOn with
  | nil => rw [List.append_nil]
  | append_singleton init c ih =>
    rw [← List.append_assoc, List.rdropWhile_concat_pos _ _ _ (all c (by simp)),
      ih fun d member => all d (by simp [member])]

theorem rdropWhile_append_some (some_ : back.rdropWhile p ≠ []) :
    (front ++ back).rdropWhile p = front ++ back.rdropWhile p := by
  induction back using List.reverseRecOn with
  | nil => exact absurd rfl some_
  | append_singleton init c ih =>
    by_cases dropped : p c
    · rw [List.rdropWhile_concat_pos _ _ _ dropped] at some_ ⊢
      rw [← List.append_assoc, List.rdropWhile_concat_pos _ _ _ dropped, ih some_]
    · rw [← List.append_assoc, List.rdropWhile_concat_neg _ _ _ dropped,
        List.rdropWhile_concat_neg _ _ _ dropped, List.append_assoc]

theorem rdropWhile_eq_self (ends : ∀ c, s.getLast? = some c → p c = false) :
    s.rdropWhile p = s := by
  apply List.rdropWhile_eq_self_iff.mpr
  intro nonempty
  simp [ends _ (List.getLast?_eq_some_getLast nonempty)]

/-- What a kept character stands behind is kept. -/
theorem rdropWhile_behind {c : α} (kept : p c = false) :
    (front ++ c :: back).rdropWhile p = front ++ c :: back.rdropWhile p := by
  have some_ : (c :: back).rdropWhile p ≠ [] := by
    intro none_
    have dropped := List.rdropWhile_eq_nil_iff.mp none_ c (by simp)
    simp [kept] at dropped
  rw [rdropWhile_append_some some_]
  congr 1
  by_cases none_ : back.rdropWhile p = []
  · rw [← List.singleton_append, rdropWhile_append_all (List.rdropWhile_eq_nil_iff.mp none_), none_]
    exact rdropWhile_eq_self (by simpa using kept)
  · rw [← List.singleton_append, rdropWhile_append_some none_]
    rfl

theorem dropWhile_behind {c : α} (kept : p c = false) :
    (front ++ c :: back).dropWhile p = front.dropWhile p ++ c :: back := by
  induction front with
  | nil => exact List.dropWhile_cons_of_neg (by simp [kept])
  | cons d rest ih =>
    by_cases dropped : p d
    · rw [List.cons_append, List.dropWhile_cons_of_pos dropped, ih,
        List.dropWhile_cons_of_pos dropped]
    · rw [List.cons_append, List.dropWhile_cons_of_neg dropped,
        List.dropWhile_cons_of_neg dropped, List.cons_append]

theorem last_of_rdropWhile (same : s.rdropWhile p = s) {c : α} (last : s.getLast? = some c) :
    p c = false := by
  have nonempty : s ≠ [] := by
    rintro rfl
    cases last
  rw [List.getLast?_eq_some_getLast nonempty] at last
  cases last
  simpa using List.rdropWhile_eq_self_iff.mp same nonempty

end

section
variable [DecidableEq α] {word s front back : List α}

/-- The text without one word at its end, where it has it there. -/
def stripSuffix (word s : List α) : List α :=
  if word <:+ s then s.take (s.length - word.length) else s

theorem stripSuffix_append (word s : List α) : stripSuffix word (s ++ word) = s := by
  rw [stripSuffix, if_pos (List.suffix_append s word)]
  simp

theorem stripSuffix_of_not (lacks : ¬ word <:+ s) : stripSuffix word s = s := if_neg lacks

theorem stripSuffix_cases (word s : List α) :
    s = stripSuffix word s ++ word ∨ ¬ word <:+ s ∧ stripSuffix word s = s := by
  by_cases has : word <:+ s
  · obtain ⟨rest, rfl⟩ := has
    exact Or.inl (by rw [stripSuffix_append])
  · exact Or.inr ⟨has, stripSuffix_of_not has⟩

omit [DecidableEq α] in
theorem suffix_behind {c : α} (lacks : c ∉ word) :
    word <:+ front ++ c :: back ↔ word <:+ back := by
  constructor
  · rintro ⟨left, same⟩
    rw [List.append_eq_append_iff] at same
    rcases same with ⟨gap, rfl, tail⟩ | ⟨gap, rfl, tail⟩
    · exact absurd (by simp [tail]) lacks
    · cases gap with
      | nil => exact absurd (by simp [← show c :: back = word from tail]) lacks
      | cons first gap =>
        obtain ⟨-, rfl⟩ := List.cons.inj tail
        exact List.suffix_append gap word
  · rintro ⟨left, rfl⟩
    exact ⟨front ++ c :: left, by simp⟩

theorem stripSuffix_behind {c : α} (lacks : c ∉ word) :
    stripSuffix word (front ++ c :: back) = front ++ c :: stripSuffix word back := by
  rcases stripSuffix_cases word back with has | ⟨not_, same⟩
  · rw [has]
    have longer := stripSuffix_append word (front ++ c :: stripSuffix word back)
    rw [stripSuffix_append]
    simpa using longer
  · rw [same, stripSuffix_of_not (fun has => not_ ((suffix_behind lacks).mp has))]

end

/-! ### Where a word is first found -/

section
variable [DecidableEq α]

/-- The index of the first place where the word stands. -/
def findWord (word : List α) : List α → Option Nat
  | [] => if word = [] then some 0 else none
  | c :: rest => if word <+: c :: rest then some 0 else (findWord word rest).map (· + 1)

theorem findWord_behind {word front back : List α} (some_ : word ≠ [])
    (clear : ∀ k < front.length, ¬ word <+: front.drop k ++ (word ++ back)) :
    findWord word (front ++ (word ++ back)) = some front.length := by
  induction front with
  | nil =>
    obtain ⟨c, rest, rfl⟩ := List.exists_cons_of_ne_nil some_
    exact if_pos ⟨back, rfl⟩
  | cons c rest ih =>
    have here : ¬ word <+: c :: (rest ++ (word ++ back)) := by
      simpa using clear 0 (by simp)
    rw [List.cons_append, findWord, if_neg here, ih, Option.map_some, List.length_cons]
    intro k below
    simpa using clear (k + 1) (by simpa using below)

end

/-- A text is taken apart at the first place of a character in one way only. -/
theorem split_first_injective {c : α} {front other back rest : List α} (lacks : c ∉ front)
    (lacks_other : c ∉ other) (same : front ++ c :: back = other ++ c :: rest) :
    front = other ∧ back = rest := by
  rw [List.append_eq_append_iff] at same
  rcases same with ⟨gap, rfl, tail⟩ | ⟨gap, rfl, tail⟩
  · cases gap with
    | nil => exact ⟨by simp, (List.cons.inj tail).2⟩
    | cons d more =>
      obtain rfl : c = d := (List.cons.inj tail).1
      exact absurd (by simp) lacks_other
  · cases gap with
    | nil => exact ⟨by simp, ((List.cons.inj tail).2).symm⟩
    | cons d more =>
      obtain rfl : c = d := (List.cons.inj tail).1
      exact absurd (by simp) lacks

/-! ### The last part -/

def lastPart (p : α → Bool) (s : List α) : Option (List α) :=
  (s.splitOnP p).reverse.find? fun part => !part.isEmpty

section
variable {p : α → Bool} {s front back part : List α} {c : α}

theorem lastPart_of_plain (some_ : part ≠ []) (plain : ∀ c ∈ part, p c = false) :
    lastPart p part = some part := by
  rw [lastPart, List.splitOnP_eq_singleton plain]
  simp [some_]

theorem lastPart_split (sep : p c) :
    lastPart p (front ++ c :: back) = (lastPart p back).or (lastPart p front) := by
  rw [lastPart, List.splitOnP_append_cons _ _ sep, List.reverse_append, List.find?_append]
  rfl

theorem lastPart_nil : lastPart p ([] : List α) = none := rfl

theorem lastPart_append_seps (front : List α) (seps : ∀ c ∈ back, p c) :
    lastPart p (front ++ back) = lastPart p front := by
  induction back generalizing front with
  | nil => rw [List.append_nil]
  | cons c rest ih =>
    have behind : lastPart p rest = none := by
      rw [← lastPart_nil]
      simpa using ih [] fun d member => seps d (by simp [member])
    rw [lastPart_split (seps c (by simp)), behind, Option.none_or]

/-- The last part ends the text up to separators, and starts it or stands behind one. -/
theorem lastPart_behind (some_ : part ≠ []) (plain : ∀ c ∈ part, p c = false)
    (opens : front = [] ∨ ∃ init c, front = init ++ [c] ∧ p c) :
    lastPart p (front ++ part) = some part := by
  rcases opens with rfl | ⟨init, c, rfl, sep⟩
  · exact lastPart_of_plain some_ plain
  · rw [List.append_assoc, List.singleton_append, lastPart_split sep,
      lastPart_of_plain some_ plain, Option.some_or]

/-- The text up to where its last part starts, that part, and the separators behind it. -/
structure EndsIn (p : α → Bool) (s front part back : List α) : Prop where
  whole : s = front ++ (part ++ back)
  some_ : part ≠ []
  plain : ∀ c ∈ part, p c = false
  seps : ∀ c ∈ back, p c
  opens : front = [] ∨ ∃ init c, front = init ++ [c] ∧ p c

theorem EndsIn.lastPart (ends : EndsIn p s front part back) : lastPart p s = some part := by
  rw [ends.whole, ← List.append_assoc, lastPart_append_seps _ ends.seps,
    lastPart_behind ends.some_ ends.plain ends.opens]

theorem EndsIn.rdropWhile (ends : EndsIn p s front part back) :
    s.rdropWhile p = front ++ part := by
  have open_ : part.rdropWhile p = part := by
    apply rdropWhile_eq_self
    intro c last
    exact ends.plain c (List.mem_of_getLast? last)
  rw [ends.whole, ← List.append_assoc, rdropWhile_append_all ends.seps,
    rdropWhile_append_some (by rw [open_]; exact ends.some_), open_]

theorem opens_of_seps (seps : ∀ c ∈ front, p c) :
    front = [] ∨ ∃ init c, front = init ++ [c] ∧ p c := by
  rcases List.eq_nil_or_concat front with none_ | ⟨init, c, rfl⟩
  · exact Or.inl none_
  · exact Or.inr ⟨init, c, by simp, seps c (by simp)⟩

theorem ends_somewhere (p : α → Bool) (s : List α) :
    (∀ c ∈ s, p c) ∨ ∃ front part back, EndsIn p s front part back := by
  induction s using List.reverseRecOn with
  | nil => exact Or.inl (by simp)
  | append_singleton init c ih =>
    by_cases sep : p c
    · rcases ih with all | ⟨front, part, back, ends⟩
      · refine Or.inl fun d member => ?_
        rcases List.mem_append.mp member with before | last
        · exact all d before
        · rwa [List.mem_singleton.mp last]
      · refine Or.inr ⟨front, part, back ++ [c], by simp [ends.whole], ends.some_, ends.plain,
          fun d member => ?_, ends.opens⟩
        rcases List.mem_append.mp member with before | last
        · exact ends.seps d before
        · rwa [List.mem_singleton.mp last]
    · have single : ∀ d ∈ [c], p d = false := by simpa using sep
      rcases ih with all | ⟨front, part, back, ends⟩
      · exact Or.inr ⟨init, [c], [], by simp, by simp, single, by simp, opens_of_seps all⟩
      · rcases opens_of_seps ends.seps with rfl | ⟨more, d, rfl, last⟩
        · refine Or.inr ⟨front, part ++ [c], [], by simp [ends.whole], by simp, ?_, by simp,
            ends.opens⟩
          intro d member
          rcases List.mem_append.mp member with before | here
          · exact ends.plain d before
          · exact single d here
        · exact Or.inr ⟨init, [c], [], by simp, by simp, single, by simp,
            Or.inr ⟨front ++ (part ++ more), d, by simp [ends.whole], last⟩⟩

theorem lastPart_of_seps (seps : ∀ c ∈ s, p c) : lastPart p s = none := by
  simpa [lastPart_nil] using lastPart_append_seps [] seps

theorem EndsIn.map {f : α → α} (same : ∀ c, p (f c) = p c) (ends : EndsIn p s front part back) :
    EndsIn p (s.map f) (front.map f) (part.map f) (back.map f) where
  whole := by rw [ends.whole, List.map_append, List.map_append]
  some_ := by simpa using ends.some_
  plain := by simpa [same] using ends.plain
  seps := by simpa [same] using ends.seps
  opens := by
    rcases ends.opens with rfl | ⟨init, c, rfl, sep⟩
    · exact Or.inl rfl
    · exact Or.inr ⟨init.map f, f c, by simp, by rw [same, sep]⟩

theorem lastPart_map {f : α → α} (same : ∀ c, p (f c) = p c) (s : List α) :
    lastPart p (s.map f) = (lastPart p s).map (List.map f) := by
  rcases ends_somewhere p s with all | ⟨front, part, back, ends⟩
  · rw [lastPart_of_seps all, lastPart_of_seps (by simpa [same] using all), Option.map_none]
  · rw [ends.lastPart, (ends.map same).lastPart, Option.map_some]

theorem ends_of_lastPart (found : lastPart p s = some part) :
    ∃ front back, EndsIn p s front part back := by
  rcases ends_somewhere p s with all | ⟨front, other, back, ends⟩
  · rw [lastPart_of_seps all] at found
    cases found
  · rw [ends.lastPart] at found
    cases found
    exact ⟨front, back, ends⟩

theorem seps_of_lastPart (found : lastPart p s = none) : ∀ c ∈ s, p c := by
  rcases ends_somewhere p s with all | ⟨front, other, back, ends⟩
  · exact all
  · rw [ends.lastPart] at found
    cases found

end
end PlainText

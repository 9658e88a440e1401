import Mathlib.Algebra.Group.Nat.Defs
import Mathlib.Data.List.TakeWhile
import Projgit.GitCli

/-!
The lines of `git cat-file --batch-check` as `parse_line` reads them. A header is
accepted exactly if the line is the queried id in any case, a kind and a decimal size,
separated by one blank each; around the size the parser is lenient.
-/
namespace ProjgitGitCli
open ProjgitStore
variable {ω : Type} {cat : CatFile ω}

def kindName : ObjectKind → String
  | .blob => "blob"
  | .tree => "tree"
  | .commit => "commit"
  | .tag => "tag"

structure SizeText (size : Nat) (text : List Char) : Prop where
  shape : ∃ before sign digits after : List Char, text = before ++ (sign ++ digits) ++ after ∧
    (∀ c ∈ before, isWhitespace c) ∧ (∀ c ∈ after, isWhitespace c) ∧
    (sign = [] ∨ sign = ['+']) ∧ digits ≠ [] ∧ (∀ c ∈ digits, c.isDigit) ∧
    Nat.ofDigitChars 10 digits 0 = size
  bound : size < 2 ^ 64

def HeaderLine (oid : ObjectId) (kind : ObjectKind) (size : Nat) (line : String) : Prop :=
  ∃ sha text : List Char,
    line.toList = sha ++ ' ' :: ((kindName kind).toList ++ ' ' :: text) ∧
      eqIgnoreAsciiCase sha oid.toHex.toList ∧ SizeText size text

theorem cutAtSpace_some {cs a b : List Char} :
    cutAtSpace cs = (a, some b) ↔ cs = a ++ ' ' :: b ∧ ' ' ∉ a := by
  have walked := List.takeWhile_append_dropWhile (p := (· ≠ ' ')) (l := cs)
  have clear : ' ' ∉ cs.takeWhile (· ≠ ' ') := fun member => by
    simpa using List.mem_takeWhile_imp member
  constructor
  · intro cut
    unfold cutAtSpace at cut
    split at cut
    · cases cut
    · rename_i first rest dropped
      obtain ⟨rfl, same⟩ := Prod.mk.inj cut
      obtain rfl := Option.some.inj same
      have blank : first = ' ' := by
        have head := List.head?_dropWhile_not (· ≠ ' ') cs
        rw [dropped] at head
        simpa using head
      rw [dropped, blank] at walked
      exact ⟨walked.symm, clear⟩
  · rintro ⟨rfl, without⟩
    have plain : ∀ c ∈ a, decide (c ≠ ' ') = true := fun c member =>
      decide_eq_true fun same => without (same ▸ member)
    unfold cutAtSpace
    rw [List.dropWhile_append_of_pos plain, List.takeWhile_append_of_pos plain]
    simp

theorem cutAtSpace_plain {cs : List Char} (plain : ' ' ∉ cs) : cutAtSpace cs = (cs, none) := by
  have all : cs.dropWhile (· ≠ ' ') = [] := by
    rw [List.dropWhile_eq_nil_iff]
    exact fun c member => decide_eq_true fun same => plain (same ▸ member)
  simp only [cutAtSpace, all]

theorem kindNamed_iff (name : String) (kind : ObjectKind) :
    kindNamed name = some kind ↔ name = kindName kind := by
  constructor
  · intro named
    unfold kindNamed at named
    split at named <;> cases named <;> rfl
  · rintro rfl
    cases kind <;> rfl

theorem parseU64_iff (cs : List Char) (n : Nat) :
    parseU64 cs = some n ↔ ∃ sign digits, cs = sign ++ digits ∧ (sign = [] ∨ sign = ['+']) ∧
      digits ≠ [] ∧ (∀ c ∈ digits, c.isDigit) ∧ Nat.ofDigitChars 10 digits 0 = n ∧ n < 2 ^ 64 := by
  have plus : ¬ ('+' : Char).isDigit := by decide
  constructor
  · intro parsed
    obtain ⟨sign, digits, rfl, signs, stripped⟩ : ∃ sign digits, cs = sign ++ digits ∧
        (sign = [] ∨ sign = ['+']) ∧ (if cs.head? = some '+' then cs.tail else cs) = digits := by
      by_cases signed : cs.head? = some '+'
      · exact ⟨['+'], cs.tail, (List.cons_head?_tail signed).symm, Or.inr rfl, if_pos signed⟩
      · exact ⟨[], cs, rfl, Or.inl rfl, if_neg signed⟩
    unfold parseU64 at parsed
    simp only [stripped, ← Nat.ofDigitChars_eq_foldl] at parsed
    split at parsed
    · rename_i fine
      obtain ⟨nonempty, all, bound⟩ := fine
      obtain rfl := Option.some.inj parsed
      exact ⟨sign, digits, rfl, signs, nonempty, List.all_eq_true.mp all, rfl, bound⟩
    · cases parsed
  · rintro ⟨sign, digits, rfl, signs, nonempty, all, rfl, bound⟩
    have stripped : (if (sign ++ digits).head? = some '+' then (sign ++ digits).tail
        else sign ++ digits) = digits := by
      rcases signs with rfl | rfl
      · refine if_neg fun starts => ?_
        cases digits with
        | nil => cases starts
        | cons c rest =>
          obtain rfl : c = '+' := Option.some.inj starts
          exact plus (all '+' List.mem_cons_self)
      · rfl
    unfold parseU64
    simp only [stripped, ← Nat.ofDigitChars_eq_foldl]
    exact if_pos ⟨nonempty, List.all_eq_true.mpr all, bound⟩

theorem trim_padding (cs : List Char) : ∃ before after, cs = before ++ trim cs ++ after ∧
    (∀ c ∈ before, isWhitespace c) ∧ (∀ c ∈ after, isWhitespace c) := by
  have front := List.takeWhile_append_dropWhile (p := isWhitespace) (l := cs)
  have back := List.takeWhile_append_dropWhile (p := isWhitespace)
    (l := (cs.dropWhile isWhitespace).reverse)
  refine ⟨cs.takeWhile isWhitespace,
    ((cs.dropWhile isWhitespace).reverse.takeWhile isWhitespace).reverse, ?_, ?_, ?_⟩
  · rw [trim, List.append_assoc, ← List.reverse_append, back, List.reverse_reverse, front]
  · exact fun c member => List.mem_takeWhile_imp member
  · exact fun c member => List.mem_takeWhile_imp (List.mem_reverse.mp member)

theorem dropWhile_to {before core : List Char} (blank : ∀ c ∈ before, isWhitespace c)
    (solid : ∀ c ∈ core, ¬ isWhitespace c) (nonempty : core ≠ []) (after : List Char) :
    (before ++ core ++ after).dropWhile isWhitespace = core ++ after := by
  rw [List.append_assoc, List.dropWhile_append_of_pos blank]
  cases core with
  | nil => exact absurd rfl nonempty
  | cons c rest => exact List.dropWhile_cons_of_neg (solid c List.mem_cons_self)

theorem trim_padded {before core after : List Char} (blank : ∀ c ∈ before, isWhitespace c)
    (solid : ∀ c ∈ core, ¬ isWhitespace c) (nonempty : core ≠ [])
    (blank' : ∀ c ∈ after, isWhitespace c) : trim (before ++ core ++ after) = core := by
  have back : (after.reverse ++ core.reverse ++ []).dropWhile isWhitespace =
      core.reverse ++ [] :=
    dropWhile_to (fun c member => blank' c (List.mem_reverse.mp member))
      (fun c member => solid c (List.mem_reverse.mp member)) (by simpa using nonempty) []
  rw [trim, dropWhile_to blank solid nonempty, List.reverse_append]
  rw [List.append_nil, List.append_nil] at back
  rw [back, List.reverse_reverse]

theorem digit_solid {c : Char} (digit : c.isDigit) : ¬ isWhitespace c := by
  simp only [Char.isDigit, Bool.and_eq_true, decide_eq_true_eq, UInt32.le_iff_toNat_le] at digit
  have zero : ('0' : Char).val.toNat = 48 := rfl
  have nine : ('9' : Char).val.toNat = 57 := rfl
  have same : c.toNat = c.val.toNat := rfl
  simp [isWhitespace, UInt32.le_iff_toNat_le, ← UInt32.toNat_inj]
  omega

theorem size_text_iff (size : Nat) (text : List Char) :
    parseU64 (trim text) = some size ↔ SizeText size text := by
  rw [parseU64_iff]
  constructor
  · rintro ⟨sign, digits, same, signs, nonempty, all, value, bound⟩
    obtain ⟨before, after, padded, blank, blank'⟩ := trim_padding text
    rw [same] at padded
    exact ⟨⟨before, sign, digits, after, padded, blank, blank', signs, nonempty, all, value⟩, bound⟩
  · rintro ⟨⟨before, sign, digits, after, rfl, blank, blank', signs, nonempty, all, value⟩, bound⟩
    have solid : ∀ c ∈ sign ++ digits, ¬ isWhitespace c := by
      intro c member
      rcases List.mem_append.mp member with signed | digit
      · rcases signs with rfl | rfl
        · cases signed
        · obtain rfl := List.mem_singleton.mp signed
          decide
      · exact digit_solid (all c digit)
    exact ⟨sign, digits, trim_padded blank solid (by simp [nonempty]) blank', signs, nonempty, all,
      value, bound⟩

theorem echo_unbroken {sha : List Char} {oid : ObjectId}
    (echo : eqIgnoreAsciiCase sha oid.toHex.toList) : ' ' ∉ sha := by
  intro member
  have lowered : ' ' ∈ sha.map Char.toLower := List.mem_map.mpr ⟨' ', member, by decide⟩
  rw [of_decide_eq_true echo, List.mem_map] at lowered
  obtain ⟨c, digit, blank⟩ := lowered
  have each : ∀ n < 16, (hexDigit n).toLower ≠ ' ' := by decide
  rw [ObjectId.toHex, String.toList_ofList, List.mem_flatMap] at digit
  obtain ⟨b, -, digit⟩ := digit
  have bound : b.toNat < 256 := b.toNat_lt
  simp only [List.mem_cons, List.not_mem_nil, or_false] at digit
  rcases digit with rfl | rfl
  · exact each _ (by omega) blank
  · exact each _ (by omega) blank

theorem kindName_unbroken (kind : ObjectKind) : ' ' ∉ (kindName kind).toList := by
  cases kind <;> decide

/-- The echo is tested first, then the kind, then the size. -/
theorem parse_header_iff (oid : ObjectId) (line : String) (kind : ObjectKind) (size : Nat) :
    parseLine cat oid line = .ok (.header kind size) ↔ HeaderLine oid kind size line := by
  constructor
  · intro parsed
    unfold parseLine at parsed
    rcases first : cutAtSpace line.toList with ⟨sha, _ | tail⟩
    · simp only [first] at parsed
      split at parsed
      · cases parsed
      · simp [kindNamed] at parsed
    · rcases second : cutAtSpace tail with ⟨word, rest⟩
      simp only [first, second] at parsed
      split at parsed
      · cases parsed
      · rename_i echo
        rw [Bool.not_eq_true', Bool.not_eq_false] at echo
        split at parsed
        · rename_i kind' named
          split at parsed
          · rename_i size' sized
            cases parsed
            obtain ⟨text, rfl, read⟩ := Option.bind_eq_some_iff.mp sized
            obtain ⟨whole, -⟩ := cutAtSpace_some.mp first
            obtain ⟨rfl, -⟩ := cutAtSpace_some.mp second
            have word_eq : word = (kindName kind).toList := by
              rw [← (kindNamed_iff _ kind).mp named, String.toList_ofList]
            refine ⟨sha, text, ?_, echo, (size_text_iff size text).mp read⟩
            rw [whole, word_eq]
          · cases parsed
        · split at parsed <;> cases parsed
  · rintro ⟨sha, text, whole, echo, sized⟩
    have first := cutAtSpace_some.mpr ⟨whole, echo_unbroken echo⟩
    have second : cutAtSpace ((kindName kind).toList ++ ' ' :: text) =
        ((kindName kind).toList, some text) := cutAtSpace_some.mpr ⟨rfl, kindName_unbroken kind⟩
    have named : kindNamed (String.ofList (kindName kind).toList) = some kind := by
      rw [kindNamed_iff, String.ofList_toList]
    unfold parseLine
    simp only [first, second, echo, named, Bool.not_true, Bool.false_eq_true, if_false,
      Option.bind_some, (size_text_iff size text).mpr sized]

def honestLine (truth : ObjectId → Option (ObjectKind × Nat)) (oid : ObjectId) : String :=
  match truth oid with
  | some (kind, size) => oid.toHex ++ " " ++ kindName kind ++ " " ++ toString size
  | none => oid.toHex ++ " missing"

theorem honest_header {truth : ObjectId → Option (ObjectKind × Nat)} {oid : ObjectId}
    {kind : ObjectKind} {size : Nat} (known : truth oid = some (kind, size))
    (bound : size < 2 ^ 64) : HeaderLine oid kind size (honestLine truth oid) := by
  refine ⟨oid.toHex.toList, Nat.toDigits 10 size, ?_, by simp [eqIgnoreAsciiCase], ?_, bound⟩
  · simp only [honestLine, known, String.toList_append, Nat.toString_eq_repr, Nat.toList_repr]
    simp
  · refine ⟨[], [], Nat.toDigits 10 size, [], by simp, by simp, by simp, Or.inl rfl,
      Nat.toDigits_ne_nil, ?_, Nat.ofDigitChars_toDigits (by omega) (by omega)⟩
    exact fun c member => Nat.isDigit_of_mem_toDigits (by omega) (by omega) member

theorem honest_missing {truth : ObjectId → Option (ObjectKind × Nat)} {oid : ObjectId}
    (unknown : truth oid = none) : parseLine cat oid (honestLine truth oid) = .ok .missing := by
  have echo : eqIgnoreAsciiCase oid.toHex.toList oid.toHex.toList := by simp [eqIgnoreAsciiCase]
  have first : cutAtSpace (honestLine truth oid).toList =
      (oid.toHex.toList, some "missing".toList) := by
    refine cutAtSpace_some.mpr ⟨?_, echo_unbroken echo⟩
    simp [honestLine, unknown, String.toList_append]
  have second : cutAtSpace "missing".toList = ("missing".toList, none) :=
    cutAtSpace_plain (by decide)
  have unnamed : kindNamed "missing" = none := by decide
  unfold parseLine
  simp only [first, second, echo, String.ofList_toList, unnamed, Bool.not_true,
    Bool.false_eq_true, if_false, if_true]

end ProjgitGitCli

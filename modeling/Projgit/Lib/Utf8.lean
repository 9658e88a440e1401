import Mathlib.Data.List.Basic

/- UTF-8 over byte lists: well-formed text and the lossy decoding that replaces each
   maximal ill-formed chunk by U+FFFD, chunked as `Utf8Chunks` of the Rust standard
   library chunks. A decoded string is kept as the list of its UTF-8 bytes. -/
namespace Utf8Bytes

abbrev Bytes := List UInt8

def charWidth (b : UInt8) : Nat :=
  if b < 0x80 then 1 else if 0xC2 ≤ b ∧ b ≤ 0xDF then 2
  else if 0xE0 ≤ b ∧ b ≤ 0xEF then 3 else if 0xF0 ≤ b ∧ b ≤ 0xF4 then 4 else 0

def isCont (b : UInt8) : Bool := decide (0x80 ≤ b ∧ b ≤ 0xBF)

/-- Second byte of a three-byte character: no overlong form and no surrogate. -/
def second3 (b0 b1 : UInt8) : Bool :=
  decide ((b0 = 0xE0 ∧ 0xA0 ≤ b1 ∧ b1 ≤ 0xBF) ∨
    (0xE1 ≤ b0 ∧ b0 ≤ 0xEC ∧ 0x80 ≤ b1 ∧ b1 ≤ 0xBF) ∨
    (b0 = 0xED ∧ 0x80 ≤ b1 ∧ b1 ≤ 0x9F) ∨
    (0xEE ≤ b0 ∧ b0 ≤ 0xEF ∧ 0x80 ≤ b1 ∧ b1 ≤ 0xBF))

def second4 (b0 b1 : UInt8) : Bool :=
  decide ((b0 = 0xF0 ∧ 0x90 ≤ b1 ∧ b1 ≤ 0xBF) ∨
    (0xF1 ≤ b0 ∧ b0 ≤ 0xF3 ∧ 0x80 ≤ b1 ∧ b1 ≤ 0xBF) ∨
    (b0 = 0xF4 ∧ 0x80 ≤ b1 ∧ b1 ≤ 0x8F))

/-- Whether the text opens with a character, and how many bytes were looked at. Bytes past
    the end read as 0, which continues no character. -/
def scan : Bytes → Bool × Nat
  | [] => (false, 0)
  | b0 :: rest =>
    match charWidth b0 with
    | 1 => (true, 1)
    | 2 => if isCont (rest.getD 0 0) then (true, 2) else (false, 1)
    | 3 =>
      if second3 b0 (rest.getD 0 0) then
        if isCont (rest.getD 1 0) then (true, 3) else (false, 2)
      else (false, 1)
    | 4 =>
      if second4 b0 (rest.getD 0 0) then
        if isCont (rest.getD 1 0) then
          if isCont (rest.getD 2 0) then (true, 4) else (false, 3)
        else (false, 2)
      else (false, 1)
    | _ => (false, 1)

/-- U+FFFD. -/
def replacement : Bytes := [0xEF, 0xBF, 0xBD]

def lossyFrom : Nat → Bytes → Bytes
  | 0, _ => []
  | _ + 1, [] => []
  | fuel + 1, b :: rest =>
    let (whole, n) := scan (b :: rest)
    (if whole then (b :: rest).take n else replacement) ++ lossyFrom fuel ((b :: rest).drop n)

/-- `String::from_utf8_lossy`, as the bytes of the resulting string. -/
def fromUtf8Lossy (bs : Bytes) : Bytes := lossyFrom bs.length bs

inductive IsChar : Bytes → Prop where
  | one {a : UInt8} (width : charWidth a = 1) : IsChar [a]
  | two {a b : UInt8} (width : charWidth a = 2) (next : isCont b) : IsChar [a, b]
  | three {a b c : UInt8} (width : charWidth a = 3) (next : second3 a b) (last : isCont c) :
      IsChar [a, b, c]
  | four {a b c d : UInt8} (width : charWidth a = 4) (next : second4 a b) (third : isCont c)
      (last : isCont d) : IsChar [a, b, c, d]

inductive Valid : Bytes → Prop where
  | nil : Valid []
  | cons {c rest : Bytes} (head : IsChar c) (tail : Valid rest) : Valid (c ++ rest)

theorem isChar_ne_nil {c : Bytes} (char : IsChar c) : c ≠ [] := by
  cases char <;> simp

theorem scan_char {c : Bytes} (char : IsChar c) (rest : Bytes) :
    scan (c ++ rest) = (true, c.length) := by
  cases char with
  | one width => simp [scan, width]
  | two width next => simp [scan, width, next]
  | three width next last => simp [scan, width, next, last]
  | four width next third last => simp [scan, width, next, third, last]

theorem second3_cont {a b : UInt8} (next : second3 a b) : isCont b := by
  simp only [second3, isCont, decide_eq_true_eq] at next ⊢
  have low : (0x80 : UInt8) ≤ 0xA0 := by decide
  have high : (0x9F : UInt8) ≤ 0xBF := by decide
  rcases next with h | h | h | h
  · exact ⟨UInt8.le_trans low h.2.1, h.2.2⟩
  · exact h.2.2
  · exact ⟨h.2.1, UInt8.le_trans h.2.2 high⟩
  · exact h.2.2

theorem second4_cont {a b : UInt8} (next : second4 a b) : isCont b := by
  simp only [second4, isCont, decide_eq_true_eq] at next ⊢
  have low : (0x80 : UInt8) ≤ 0x90 := by decide
  have high : (0x8F : UInt8) ≤ 0xBF := by decide
  rcases next with h | h | h
  · exact ⟨UInt8.le_trans low h.2.1, h.2.2⟩
  · exact h.2.2
  · exact ⟨h.2.1, UInt8.le_trans h.2.2 high⟩

theorem second3_zero (a : UInt8) : second3 a 0 = false := by
  cases h : second3 a 0 with
  | false => rfl
  | true => exact absurd (second3_cont h) (by decide)

theorem second4_zero (a : UInt8) : second4 a 0 = false := by
  cases h : second4 a 0 with
  | false => rfl
  | true => exact absurd (second4_cont h) (by decide)

theorem charWidth_le (b : UInt8) : charWidth b ≤ 4 := by
  unfold charWidth
  split <;> [omega; split <;> [omega; split <;> [omega; split <;> omega]]]

theorem isCont_zero : isCont 0 = false := by decide

theorem char_of_scan {bs : Bytes} (whole : (scan bs).1 = true) :
    ∃ c rest, bs = c ++ rest ∧ IsChar c ∧ (scan bs).2 = c.length := by
  cases bs with
  | nil => simp [scan] at whole
  | cons a rest =>
    have width := charWidth_le a
    obtain w | w | w | w | w : charWidth a = 0 ∨ charWidth a = 1 ∨ charWidth a = 2 ∨
        charWidth a = 3 ∨ charWidth a = 4 := by omega
    · simp [scan, w] at whole
    · exact ⟨[a], rest, rfl, .one w, by simp [scan, w]⟩
    · rcases rest with _ | ⟨b, rest⟩
      · simp [scan, w, isCont_zero] at whole
      · cases next : isCont b with
        | false => simp [scan, w, next] at whole
        | true => exact ⟨[a, b], rest, rfl, .two w next, by simp [scan, w, next]⟩
    · rcases rest with _ | ⟨b, _ | ⟨c, rest⟩⟩
      · simp [scan, w, second3_zero] at whole
      · cases next : second3 a b <;> simp [scan, w, next, isCont_zero] at whole
      · cases next : second3 a b with
        | false => simp [scan, w, next] at whole
        | true =>
          cases last : isCont c with
          | false => simp [scan, w, next, last] at whole
          | true =>
            exact ⟨[a, b, c], rest, rfl, .three w next last, by simp [scan, w, next, last]⟩
    · rcases rest with _ | ⟨b, _ | ⟨c, _ | ⟨d, rest⟩⟩⟩
      · simp [scan, w, second4_zero] at whole
      · cases next : second4 a b <;> simp [scan, w, next, isCont_zero] at whole
      · cases next : second4 a b <;> cases third : isCont c <;>
          simp [scan, w, next, third, isCont_zero] at whole
      · cases next : second4 a b with
        | false => simp [scan, w, next] at whole
        | true =>
          cases third : isCont c with
          | false => simp [scan, w, next, third] at whole
          | true =>
            cases last : isCont d with
            | false => simp [scan, w, next, third, last] at whole
            | true =>
              exact ⟨[a, b, c, d], rest, rfl, .four w next third last,
                by simp [scan, w, next, third, last]⟩

theorem scan_positive {b : UInt8} {rest : Bytes} : 0 < (scan (b :: rest)).2 := by
  simp only [scan]
  split <;> (try split) <;> (try split) <;> (try split) <;> omega

/-- Fuel beyond the length changes nothing: each round drops at least one byte. -/
theorem lossyFrom_fuel {fuel : Nat} {bs : Bytes} (enough : bs.length ≤ fuel) :
    lossyFrom fuel bs = fromUtf8Lossy bs := by
  induction fuel using Nat.strongRecOn generalizing bs with
  | ind fuel ih =>
    cases bs with
    | nil => cases fuel <;> rfl
    | cons b rest =>
      cases fuel with
      | zero => simp at enough
      | succ fuel =>
        have positive : 0 < (scan (b :: rest)).2 := scan_positive
        have shorter : ((b :: rest).drop (scan (b :: rest)).2).length ≤ rest.length := by
          simp only [List.length_drop, List.length_cons]
          omega
        simp only [List.length_cons, Nat.add_le_add_iff_right] at enough
        simp only [fromUtf8Lossy, List.length_cons, lossyFrom]
        rw [ih fuel (by omega) (Nat.le_trans shorter enough)]
        by_cases same : rest.length = fuel
        · rw [same, ih fuel (by omega) (Nat.le_trans shorter enough)]
        · rw [ih rest.length (by omega) shorter]

theorem lossy_nil : fromUtf8Lossy [] = [] := rfl

theorem lossy_char {c : Bytes} (char : IsChar c) (rest : Bytes) :
    fromUtf8Lossy (c ++ rest) = c ++ fromUtf8Lossy rest := by
  obtain ⟨b, tail, shape⟩ := List.exists_cons_of_ne_nil (isChar_ne_nil char)
  have scanned := scan_char char rest
  have size : (c ++ rest).length = (tail ++ rest).length + 1 := by simp [shape]
  rw [fromUtf8Lossy, size]
  have opened : c ++ rest = b :: (tail ++ rest) := by simp [shape]
  rw [opened] at scanned ⊢
  simp only [lossyFrom, scanned, if_true]
  rw [← opened, List.take_left, List.drop_left, lossyFrom_fuel (by simp)]

theorem lossy_chunk {b : UInt8} {rest : Bytes} (broken : (scan (b :: rest)).1 = false) :
    fromUtf8Lossy (b :: rest) =
      replacement ++ fromUtf8Lossy ((b :: rest).drop (scan (b :: rest)).2) := by
  have positive : 0 < (scan (b :: rest)).2 := scan_positive
  rw [fromUtf8Lossy, List.length_cons, lossyFrom]
  simp only [broken, Bool.false_eq_true, if_false]
  rw [lossyFrom_fuel]
  simp only [List.length_drop, List.length_cons]
  omega

/-- Induction along the chunks the decoder sees. -/
theorem chunk_induction {motive : Bytes → Prop} (nil : motive [])
    (char : ∀ c rest, IsChar c → motive rest → motive (c ++ rest))
    (chunk : ∀ b rest, (scan (b :: rest)).1 = false →
      motive ((b :: rest).drop (scan (b :: rest)).2) → motive (b :: rest)) (bs : Bytes) :
    motive bs := by
  induction size : bs.length using Nat.strongRecOn generalizing bs with
  | ind n ih =>
    cases bs with
    | nil => exact nil
    | cons b rest =>
      subst size
      cases whole : (scan (b :: rest)).1 with
      | true =>
        obtain ⟨c, tail, shape, isChar, -⟩ := char_of_scan whole
        have some_byte := List.length_pos_iff.mpr (isChar_ne_nil isChar)
        rw [shape]
        refine char c tail isChar (ih tail.length ?_ tail rfl)
        rw [shape, List.length_append]
        omega
      | false =>
        have positive : 0 < (scan (b :: rest)).2 := scan_positive
        refine chunk b rest whole (ih _ ?_ _ rfl)
        simp only [List.length_drop, List.length_cons]
        omega

theorem valid_append {a b : Bytes} (first : Valid a) (second : Valid b) : Valid (a ++ b) := by
  induction first with
  | nil => exact second
  | cons head tail ih =>
    rw [List.append_assoc]
    exact .cons head ih

theorem lossy_append {a : Bytes} (valid : Valid a) (b : Bytes) :
    fromUtf8Lossy (a ++ b) = a ++ fromUtf8Lossy b := by
  induction valid with
  | nil => rfl
  | cons head tail ih => rw [List.append_assoc, lossy_char head, ih, List.append_assoc]

theorem lossy_of_valid {bs : Bytes} (valid : Valid bs) : fromUtf8Lossy bs = bs := by
  simpa [lossy_nil] using lossy_append valid []

theorem replacement_isChar : IsChar replacement := .three (by decide) (by decide) (by decide)

theorem valid_lossy (bs : Bytes) : Valid (fromUtf8Lossy bs) := by
  induction bs using chunk_induction with
  | nil => exact .nil
  | char c rest isChar ih => rw [lossy_char isChar]; exact .cons isChar ih
  | chunk b rest broken ih => rw [lossy_chunk broken]; exact .cons replacement_isChar ih

theorem lossy_mem {bs : Bytes} {x : UInt8} (member : x ∈ fromUtf8Lossy bs) :
    x ∈ bs ∨ x ∈ replacement := by
  induction bs using chunk_induction with
  | nil => simp [lossy_nil] at member
  | char c rest isChar ih =>
    rw [lossy_char isChar, List.mem_append] at member
    rcases member with head | tail
    · exact Or.inl (List.mem_append_left _ head)
    · rcases ih tail with old | new
      · exact Or.inl (List.mem_append_right _ old)
      · exact Or.inr new
  | chunk b rest broken ih =>
    rw [lossy_chunk broken, List.mem_append] at member
    rcases member with head | tail
    · exact Or.inr head
    · rcases ih tail with old | new
      · exact Or.inl (List.mem_of_mem_drop old)
      · exact Or.inr new

/-- Ill-formed text leaves a mark, so an output without the byte 0xEF is the input. -/
theorem valid_of_lossy_clean {bs : Bytes} (clean : 0xEF ∉ fromUtf8Lossy bs) : Valid bs := by
  induction bs using chunk_induction with
  | nil => exact .nil
  | char c rest isChar ih =>
    rw [lossy_char isChar, List.mem_append, not_or] at clean
    exact .cons isChar (ih clean.2)
  | chunk b rest broken ih =>
    rw [lossy_chunk broken] at clean
    simp [replacement] at clean

theorem valid_iff_lossy_eq (bs : Bytes) : Valid bs ↔ fromUtf8Lossy bs = bs := by
  constructor
  · exact lossy_of_valid
  · intro same
    exact same ▸ valid_lossy bs

instance (bs : Bytes) : Decidable (Valid bs) := decidable_of_iff _ (valid_iff_lossy_eq bs).symm

example : fromUtf8Lossy [0x61, 0xFF, 0xE2, 0x82, 0x2F] =
    [0x61] ++ replacement ++ replacement ++ [0x2F] := by decide

end Utf8Bytes

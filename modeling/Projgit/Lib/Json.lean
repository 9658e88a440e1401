import Mathlib.Data.Nat.Digits.Defs
import Projgit.Lib.Utf8

/- JSON values, their compact text with its exact length in bytes, and the reading of
   objects field by field. -/
namespace JsonText
open Utf8Bytes

/-- `other` is a number that is not a natural one, as it was written. -/
inductive Json where
  | null
  | bool (b : Bool)
  | num (n : Nat)
  | other (text : String)
  | str (s : String)
  | arr (items : List Json)
  | obj (fields : List (String × Json))

def escapeChar (c : Char) : List Char :=
  if c = '"' then ['\\', '"']
  else if c = '\\' then ['\\', '\\']
  else if c = '\t' then ['\\', 't']
  else if c = '\n' then ['\\', 'n']
  else if c = '\r' then ['\\', 'r']
  else if c.toNat = 8 then ['\\', 'b']
  else if c.toNat = 12 then ['\\', 'f']
  else if c.toNat < 32 then
    ['\\', 'u', '0', '0', Nat.digitChar (c.toNat / 16), Nat.digitChar (c.toNat % 16)]
  else [c]

def quote (s : String) : List Char := '"' :: (s.toList.flatMap escapeChar ++ ['"'])

mutual

/-- No blank anywhere, fields in the order given. -/
def Json.text : Json → List Char
  | .null => ['n', 'u', 'l', 'l']
  | .bool true => ['t', 'r', 'u', 'e']
  | .bool false => ['f', 'a', 'l', 's', 'e']
  | .num n => Nat.toDigits 10 n
  | .other text => text.toList
  | .str s => quote s
  | .arr [] => ['[', ']']
  | .arr (j :: rest) => '[' :: (j.text ++ (itemsText rest ++ [']']))
  | .obj [] => ['\x7b', '\x7d']
  | .obj ((key, j) :: rest) =>
    '\x7b' :: (quote key ++ (':' :: (j.text ++ (fieldsText rest ++ ['\x7d']))))

def itemsText : List Json → List Char
  | [] => []
  | j :: rest => ',' :: (j.text ++ itemsText rest)

def fieldsText : List (String × Json) → List Char
  | [] => []
  | (key, j) :: rest => ',' :: (quote key ++ (':' :: (j.text ++ fieldsText rest)))

end

def utf8 (cs : List Char) : Bytes := cs.flatMap String.utf8EncodeChar

def Json.bytes (j : Json) : Bytes := utf8 j.text

def byteLen (cs : List Char) : Nat := (cs.map Char.utf8Size).sum

@[simp] theorem byteLen_nil : byteLen [] = 0 := rfl

@[simp] theorem byteLen_cons (c : Char) (cs : List Char) :
    byteLen (c :: cs) = c.utf8Size + byteLen cs := by
  simp [byteLen]

@[simp] theorem byteLen_append (a b : List Char) : byteLen (a ++ b) = byteLen a + byteLen b := by
  simp [byteLen]

theorem utf8_length (cs : List Char) : (utf8 cs).length = byteLen cs := by
  induction cs with
  | nil => rfl
  | cons c rest ih =>
    rw [byteLen_cons, ← ih]
    simp [utf8]

def quotedLen (s : String) : Nat := 2 + byteLen (s.toList.flatMap escapeChar)

def textLen (s : String) : Nat := byteLen (s.toList.flatMap escapeChar)

@[simp] theorem quotedLen_eq (s : String) : quotedLen s = 2 + textLen s := rfl

theorem byteLen_quote (s : String) : byteLen (quote s) = quotedLen s := by
  have mark : Char.utf8Size '"' = 1 := by decide
  simp only [quote, byteLen_cons, byteLen_append, byteLen_nil, quotedLen, mark]
  omega

theorem utf8Size_of_isDigit {c : Char} (digit : c.isDigit) : c.utf8Size = 1 := by
  simp only [Char.isDigit, Bool.and_eq_true, decide_eq_true_eq] at digit
  rw [Char.utf8Size_eq_one_iff]
  exact UInt32.le_trans digit.2 (by decide)

theorem byteLen_digits (n : Nat) : byteLen (Nat.toDigits 10 n) = (Nat.toDigits 10 n).length := by
  have ones : ∀ cs : List Char, (∀ c ∈ cs, c.isDigit) → byteLen cs = cs.length := by
    intro cs digits
    induction cs with
    | nil => rfl
    | cons c rest ih =>
      rw [byteLen_cons, utf8Size_of_isDigit (digits c (by simp)),
        ih fun d later => digits d (by simp [later]), List.length_cons]
      omega
  exact ones _ fun c member => Nat.isDigit_of_mem_toDigits (by omega) (by omega) member

def Json.size (j : Json) : Nat := byteLen j.text

theorem bytes_length (j : Json) : j.bytes.length = j.size := utf8_length j.text

theorem size_null : Json.null.size = 4 := by decide

theorem size_num (n : Nat) : (Json.num n).size = (Nat.toDigits 10 n).length := byteLen_digits n

@[simp] theorem size_str (s : String) : (Json.str s).size = quotedLen s := byteLen_quote s

theorem byteLen_items (items : List Json) :
    byteLen (itemsText items) = (items.map Json.size).sum + items.length := by
  have comma : Char.utf8Size ',' = 1 := by decide
  induction items with
  | nil => rfl
  | cons j rest ih =>
    simp only [itemsText, byteLen_cons, byteLen_append, ih, comma, List.map_cons, List.sum_cons,
      List.length_cons, Json.size]
    omega

theorem size_arr (items : List Json) :
    (Json.arr items).size = 2 + (items.map Json.size).sum + (items.length - 1) := by
  cases items with
  | nil => decide
  | cons j rest =>
    have brackets : Char.utf8Size '[' = 1 ∧ Char.utf8Size ']' = 1 := by decide
    simp only [Json.size, Json.text, byteLen_cons, byteLen_append, byteLen_nil, brackets,
      List.map_cons, List.sum_cons, List.length_cons, byteLen_items]
    omega

/-- A key, its colon and the value. -/
@[simp] def fieldSize (field : String × Json) : Nat := quotedLen field.1 + 1 + field.2.size

theorem byteLen_fields (fields : List (String × Json)) :
    byteLen (fieldsText fields) = (fields.map fieldSize).sum + fields.length := by
  have marks : Char.utf8Size ',' = 1 ∧ Char.utf8Size ':' = 1 := by decide
  induction fields with
  | nil => rfl
  | cons field rest ih =>
    obtain ⟨key, j⟩ := field
    simp only [fieldsText, byteLen_cons, byteLen_append, byteLen_quote, ih, marks, List.map_cons,
      List.sum_cons, List.length_cons, fieldSize, Json.size]
    omega

@[simp] theorem size_obj (fields : List (String × Json)) :
    (Json.obj fields).size = 2 + (fields.map fieldSize).sum + (fields.length - 1) := by
  cases fields with
  | nil => decide
  | cons field rest =>
    obtain ⟨key, j⟩ := field
    have marks : Char.utf8Size '\x7b' = 1 ∧ Char.utf8Size '\x7d' = 1 ∧ Char.utf8Size ':' = 1 := by
      decide
    simp only [Json.size, Json.text, byteLen_cons, byteLen_append, byteLen_nil, byteLen_quote, marks,
      List.map_cons, List.sum_cons, List.length_cons, fieldSize, byteLen_fields]
    omega

/- Reading. An object is read field by field; a field that is wanted and occurs twice is
   refused, one that is not wanted is passed over. -/
section
variable {α : Type}

def findField (name : String) (fields : List (String × Json)) : Option (Option Json) :=
  match fields.filter fun field => field.1 = name with
  | [] => some none
  | [field] => some (some field.2)
  | _ => none

def required (read : Json → Option α) (name : String) (fields : List (String × Json)) :
    Option α := do
  match ← findField name fields with
  | none => none
  | some j => read j

def defaulted (read : Json → Option α) (absent : α) (name : String)
    (fields : List (String × Json)) : Option α := do
  match ← findField name fields with
  | none => some absent
  | some j => read j

def asStr : Json → Option String
  | .str s => some s
  | _ => none

def asBool : Json → Option Bool
  | .bool b => some b
  | _ => none

def asU64 : Json → Option UInt64
  | .num n => if n < 2 ^ 64 then some (.ofNat n) else none
  | _ => none

def asList (read : Json → Option α) : Json → Option (List α)
  | .arr items => items.mapM read
  | _ => none

def asNullable (read : Json → Option α) : Json → Option (Option α)
  | .null => some none
  | j => (read j).map some

def asObject : Json → Option (List (String × Json))
  | .obj fields => some fields
  | _ => none

end
end JsonText

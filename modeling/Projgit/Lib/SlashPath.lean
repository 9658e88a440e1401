import Mathlib.Data.List.DropRight
import Mathlib.Logic.Relation
import Projgit.Lib.Utf8

/- Slash-separated byte paths: splitting, trimming and joining, as Rust's `str` does
   them, and how they cancel on lists of proper components. -/
namespace SlashPath
open Utf8Bytes

def slash : UInt8 := 47

/-- `str::split('/')`. -/
def split (path : Bytes) : List Bytes := path.splitOn slash

/-- `str::trim_matches('/')`. -/
def trim (path : Bytes) : Bytes := (path.dropWhile (· = slash)).rdropWhile (· = slash)

def join (components : List Bytes) : Bytes := [slash].intercalate components

def components (path : Bytes) : List Bytes := (split path).filter (· ≠ [])

structure Component (name : Bytes) : Prop where
  nonempty : name ≠ []
  noSlash : slash ∉ name

theorem join_cons_cons (a b : Bytes) (rest : List Bytes) :
    join (a :: b :: rest) = a ++ slash :: join (b :: rest) := by
  simp [join, List.intercalate]

theorem join_singleton (a : Bytes) : join [a] = a := by simp [join, List.intercalate]

theorem join_nil : join [] = [] := rfl

theorem join_snoc {components : List Bytes} (some_ : components ≠ []) (name : Bytes) :
    join (components ++ [name]) = join components ++ slash :: name := by
  induction components with
  | nil => exact absurd rfl some_
  | cons a rest ih =>
    cases rest with
    | nil => simp [join_singleton, join_cons_cons]
    | cons b tail =>
      simp only [List.cons_append] at ih ⊢
      rw [join_cons_cons, join_cons_cons, ih (by simp)]
      simp

theorem split_join {components : List Bytes} (proper : ∀ c ∈ components, Component c)
    (some_ : components ≠ []) : split (join components) = components :=
  List.splitOn_intercalate slash (fun c member => (proper c member).noSlash) some_

theorem join_ne_nil {components : List Bytes} (proper : ∀ c ∈ components, Component c)
    (some_ : components ≠ []) : join components ≠ [] := by
  obtain ⟨a, rest, rfl⟩ := List.exists_cons_of_ne_nil some_
  have first := (proper a (by simp)).nonempty
  cases rest with
  | nil => simpa [join_singleton] using first
  | cons b tail => simp [join_cons_cons]

theorem mem_join {components : List Bytes} {x : UInt8} (member : x ∈ join components) :
    x = slash ∨ ∃ c ∈ components, x ∈ c := by
  induction components with
  | nil => simp [join_nil] at member
  | cons a rest ih =>
    cases rest with
    | nil => exact Or.inr ⟨a, by simp, by simpa [join_singleton] using member⟩
    | cons b tail =>
      rw [join_cons_cons, List.mem_append, List.mem_cons] at member
      rcases member with here | rfl | later
      · exact Or.inr ⟨a, by simp, here⟩
      · exact Or.inl rfl
      · rcases ih later with same | ⟨c, among, inside⟩
        · exact Or.inl same
        · exact Or.inr ⟨c, List.mem_cons_of_mem _ among, inside⟩

theorem join_injective {a b : List Bytes} (properA : ∀ c ∈ a, Component c)
    (properB : ∀ c ∈ b, Component c) (same : join a = join b) : a = b := by
  by_cases emptyA : a = []
  · by_cases emptyB : b = []
    · rw [emptyA, emptyB]
    · rw [emptyA, join_nil] at same
      exact absurd same.symm (join_ne_nil properB emptyB)
  · by_cases emptyB : b = []
    · rw [emptyB, join_nil] at same
      exact absurd same (join_ne_nil properA emptyA)
    · rw [← split_join properA emptyA, same, split_join properB emptyB]

theorem join_snoc_injective {front : List Bytes} {a b : Bytes}
    (same : join (front ++ [a]) = join (front ++ [b])) : a = b := by
  by_cases empty : front = []
  · simpa [empty, join_singleton] using same
  · rw [join_snoc empty, join_snoc empty] at same
    simpa using same

theorem join_head {a : Bytes} (proper : Component a) (rest : List Bytes) :
    ∃ x tail, join (a :: rest) = x :: tail ∧ x ≠ slash := by
  obtain ⟨x, more, rfl⟩ := List.exists_cons_of_ne_nil proper.nonempty
  have clean : x ≠ slash := by
    rintro rfl
    exact proper.noSlash (by simp)
  cases rest with
  | nil => exact ⟨x, more, join_singleton _, clean⟩
  | cons b tail => exact ⟨x, _, by rw [join_cons_cons]; rfl, clean⟩

theorem join_last (components : List Bytes) {a : Bytes} (proper : Component a) :
    ∃ front x, join (components ++ [a]) = front ++ [x] ∧ x ≠ slash := by
  obtain ⟨front, x, rfl⟩ : ∃ front x, a = front ++ [x] :=
    ⟨_, _, (List.dropLast_append_getLast proper.nonempty).symm⟩
  have clean : x ≠ slash := by
    rintro rfl
    exact proper.noSlash (by simp)
  by_cases empty : components = []
  · exact ⟨front, x, by simp [empty, join_singleton], clean⟩
  · exact ⟨join components ++ slash :: front, x, by simp [join_snoc empty], clean⟩

theorem trim_of_ends {path : Bytes} {x y : UInt8} {front tail : Bytes} (head : path = x :: tail)
    (last : path = front ++ [y]) (first : x ≠ slash) (final : y ≠ slash) : trim path = path := by
  have kept : path.dropWhile (· = slash) = path := by
    rw [head]
    exact List.dropWhile_cons_of_neg (by simpa using first)
  unfold trim
  rw [kept, last]
  exact List.rdropWhile_concat_neg _ _ _ (by simpa using final)

theorem trim_join {components : List Bytes} (proper : ∀ c ∈ components, Component c) :
    trim (join components) = join components := by
  by_cases empty : components = []
  · subst empty
    rfl
  · obtain ⟨a, rest, head⟩ := List.exists_cons_of_ne_nil empty
    obtain ⟨front, b, last⟩ : ∃ front b, components = front ++ [b] :=
      ⟨_, _, (List.dropLast_append_getLast empty).symm⟩
    obtain ⟨x, tail, opened, first⟩ := join_head (proper a (by simp [head])) rest
    obtain ⟨init, y, closed, final⟩ := join_last front (proper b (by simp [last]))
    exact trim_of_ends (head ▸ opened) (last ▸ closed) first final

theorem trim_slash_join {components : List Bytes} (proper : ∀ c ∈ components, Component c) :
    trim (slash :: join components) = join components := by
  have dropped : trim (slash :: join components) = trim (join components) := by
    simp [trim]
  rw [dropped, trim_join proper]

theorem split_append_slash (a b : Bytes) : split (a ++ slash :: b) = split a ++ split b :=
  List.splitOn_append_cons_self a b

theorem split_of_noSlash {a : Bytes} (noSlash : slash ∉ a) : split a = [a] :=
  List.splitOn_eq_singleton noSlash

theorem mem_split {path c : Bytes} (member : c ∈ split path) : slash ∉ c := by
  induction path generalizing c with
  | nil =>
    obtain rfl : c = [] := by simpa [split] using member
    simp
  | cons x rest ih =>
    unfold split at ih member
    rw [List.splitOn_cons_eq_if_modifyHead] at member
    by_cases same : x = slash
    · simp only [same, beq_self_eq_true, if_true, List.mem_cons] at member
      rcases member with rfl | below
      · simp
      · exact ih below
    · simp only [beq_eq_false_iff_ne.mpr same, Bool.false_eq_true, if_false] at member
      cases shape : rest.splitOn slash with
      | nil => exact absurd shape (List.splitOn_ne_nil slash rest)
      | cons first more =>
        rw [shape, List.modifyHead_cons, List.mem_cons] at member
        rcases member with rfl | below
        · have clean := ih (c := first) (by simp [shape])
          simp [clean, Ne.symm same]
        · exact ih (by simp [shape, below])

theorem mem_components {path c : Bytes} (member : c ∈ components path) : Component c := by
  obtain ⟨among, nonempty⟩ := List.mem_filter.mp member
  exact ⟨by simpa using nonempty, mem_split among⟩

@[simp] theorem components_nil : components [] = [] := rfl

theorem components_append_slash (a b : Bytes) :
    components (a ++ slash :: b) = components a ++ components b := by
  simp only [components, split_append_slash, List.filter_append]

@[simp] theorem components_slash_cons (path : Bytes) :
    components (slash :: path) = components path := components_append_slash [] path

@[simp] theorem components_snoc_slash (path : Bytes) :
    components (path ++ [slash]) = components path := by
  rw [components_append_slash, components_nil, List.append_nil]

theorem components_of_noSlash {a : Bytes} (nonempty : a ≠ []) (noSlash : slash ∉ a) :
    components a = [a] := by
  simp [components, split_of_noSlash noSlash, nonempty]

theorem components_dropWhile (path : Bytes) :
    components (path.dropWhile (· = slash)) = components path := by
  induction path with
  | nil => rfl
  | cons x rest ih =>
    by_cases same : x = slash
    · simp [same, ih]
    · simp [same]

theorem components_rdropWhile (path : Bytes) :
    components (path.rdropWhile (· = slash)) = components path := by
  induction path using List.reverseRecOn with
  | nil => rfl
  | append_singleton front x ih =>
    by_cases same : x = slash
    · rw [List.rdropWhile_concat_pos _ _ _ (by simpa using same), ih, same,
        components_snoc_slash]
    · rw [List.rdropWhile_concat_neg _ _ _ (by simpa using same)]

@[simp] theorem components_trim (path : Bytes) : components (trim path) = components path := by
  rw [trim, components_rdropWhile, components_dropWhile]

theorem head_trim {path tail : Bytes} {x : UInt8} (shape : trim path = x :: tail) :
    x ≠ slash := by
  have trimmed : (trim path) <+: path.dropWhile (· = slash) :=
    List.rdropWhile_prefix (· = slash) _
  obtain ⟨more, whole⟩ := trimmed
  rw [shape] at whole
  have some_ : path.dropWhile (· = slash) ≠ [] := by simp [← whole]
  have head := List.head_dropWhile_not (· = slash) some_
  simpa [← whole] using head

/-- A path that does not start with a slash starts with its first component. -/
theorem components_head {path : Bytes} {x : UInt8} {tail : Bytes} (shape : path = x :: tail)
    (clean : x ≠ slash) :
    components path =
      (split path).headD [] :: components (path.drop ((split path).headD []).length) := by
  by_cases inside : slash ∈ path
  · obtain ⟨a, b, rfl, noSlash⟩ := List.eq_append_cons_of_mem inside
    have nonempty : a ≠ [] := by
      rintro rfl
      exact clean (List.cons.inj shape).1.symm
    rw [components_append_slash, split_append_slash, split_of_noSlash noSlash,
      components_of_noSlash nonempty noSlash]
    simp
  · rw [components_of_noSlash (by simp [shape]) inside, split_of_noSlash inside]
    simp

theorem components_trim_head {path : Bytes} (some_ : trim path ≠ []) :
    components path = (split (trim path)).headD [] ::
      components ((trim path).drop ((split (trim path)).headD []).length) := by
  obtain ⟨x, tail, shape⟩ := List.exists_cons_of_ne_nil some_
  rw [← components_trim path]
  exact components_head shape (head_trim shape)

theorem components_eq_nil {path : Bytes} : components path = [] ↔ trim path = [] := by
  constructor
  · intro none_
    by_contra some_
    rw [components_trim_head some_] at none_
    cases none_
  · intro none_
    rw [← components_trim path, none_, components_nil]

theorem join_split (path : Bytes) : join (split path) = path := List.intercalate_splitOn slash

theorem exists_component {path : Bytes} {x : UInt8} (member : x ∈ path) (plain : x ≠ slash) :
    ∃ c ∈ components path, x ∈ c := by
  rw [← join_split path] at member
  rcases mem_join member with same | ⟨c, among, inside⟩
  · exact absurd same plain
  · exact ⟨c, List.mem_filter.mpr ⟨among, by simpa using List.ne_nil_of_mem inside⟩, inside⟩

/-- One more slash: in front, behind, or where one already stands. -/
inductive AddsSlash : Bytes → Bytes → Prop where
  | leading (path : Bytes) : AddsSlash path (slash :: path)
  | trailing (path : Bytes) : AddsSlash path (path ++ [slash])
  | repeated (a b : Bytes) : AddsSlash (a ++ slash :: b) (a ++ slash :: slash :: b)

/-- The same path with more slashes. -/
def Respelled : Bytes → Bytes → Prop := Relation.ReflTransGen AddsSlash

theorem components_respelled {path other : Bytes} (respelled : Respelled path other) :
    components other = components path := by
  induction respelled with
  | refl => rfl
  | tail _ adds ih =>
    rw [← ih]
    cases adds with
    | leading => rw [components_slash_cons]
    | trailing => rw [components_snoc_slash]
    | repeated a b => simp only [components_append_slash, components_slash_cons]

theorem mem_respelled {path other : Bytes} (respelled : Respelled path other) {x : UInt8}
    (plain : x ≠ slash) : x ∈ other ↔ x ∈ path := by
  induction respelled with
  | refl => rfl
  | tail _ adds ih =>
    rw [← ih]
    cases adds <;> simp [plain]

end SlashPath

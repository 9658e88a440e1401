import Projgit.Lib.PlainText
import Projgit.SourceUrl

/-!
The cache key of a URL in the command line (`main.rs`): the canonical form that is
hashed, the directory name made of it, and which spellings of a URL share the name.
-/
namespace ProjgitCli
open PlainText ProjgitRegistry

def schemeEnd : List Char := [':', '/', '/']

def dotGit : List Char := ['.', 'g', 'i', 't']

/-- Where the part of a trimmed source starts that is left case-sensitive: behind the
    authority, behind the colon of the SSH short form, or at the start. -/
def pathStart (trimmed : List Char) : Nat :=
  match findWord schemeEnd trimmed with
  | some idx =>
    let afterScheme := idx + 3
    match (trimmed.drop afterScheme).findIdx? (· == '/') with
    | some p => afterScheme + p
    | none => trimmed.length
  | none =>
    match trimmed.findIdx? (· == ':') with
    | some colon => colon + 1
    | none => 0

def lowered (trimmed : List Char) : List Char :=
  toAsciiLowercase (trimmed.take (pathStart trimmed)) ++ trimmed.drop (pathStart trimmed)

def canonicalizeUrlForHash (url : String) : List Char :=
  stripSuffix dotGit ((lowered (trim url.toList)).rdropWhile (· = '/'))

/-- `{:016x}` -/
def shortHash (h : UInt64) : List Char := (Nat.toDigits 16 h.toNat).leftpad 16 '0'

def isSafe (c : Char) : Bool := c.isAlphanum || c == '-' || c == '_' || c == '.'

def isPathSeparator (c : Char) : Bool := c == '/' || c == ':'

def basename (canonical : List Char) : List Char :=
  let part := (lastPart isPathSeparator (canonical.rdropWhile (· = '/'))).getD "repo".toList
  (trimGits part.reverse).reverse

def cacheSubdirForUrl (hash : List Char → UInt64) (url : String) : String :=
  let canonical := canonicalizeUrlForHash url
  let safe := (basename canonical).map fun c => if isSafe c then c else '_'
  String.ofList (safe ++ '-' :: shortHash (hash canonical))

/-! ### The parts of a URL -/

/-- A URL taken apart: the scheme ends at the first `://`, the authority at the first slash
    behind it, and the path ends neither in a slash nor in `.git`. -/
structure SourceUrl where
  scheme : List Char
  authority : List Char
  path : List Char
  schemePlain : ¬ schemeEnd <:+: scheme
  authorityPlain : '/' ∉ authority
  pathSome : path ≠ []
  pathOpen : path.getLast? ≠ some '/'
  pathBare : ¬ dotGit <:+ path
  tight : trim (scheme ++ schemeEnd ++ authority ++ '/' :: path) =
    scheme ++ schemeEnd ++ authority ++ '/' :: path

namespace SourceUrl

def text (u : SourceUrl) : String :=
  String.ofList (u.scheme ++ schemeEnd ++ u.authority ++ '/' :: u.path)

/-- The canonical form of the URL's own spelling. -/
def key (u : SourceUrl) : List Char :=
  toAsciiLowercase u.scheme ++ schemeEnd ++ toAsciiLowercase u.authority ++ '/' :: u.path

/-- A spelling of the URL: other ASCII case in scheme and authority, perhaps a `.git`,
    any number of slashes behind it, and whitespace around it. -/
structure Spelling (u : SourceUrl) (spelled : String) where
  before : List Char
  scheme : List Char
  authority : List Char
  git : List Char
  slashes : Nat
  after : List Char
  blankBefore : ∀ c ∈ before, isWhiteSpace c
  sameScheme : toAsciiLowercase scheme = toAsciiLowercase u.scheme
  sameAuthority : toAsciiLowercase authority = toAsciiLowercase u.authority
  gitOrNot : git = [] ∨ git = dotGit
  blankAfter : ∀ c ∈ after, isWhiteSpace c
  spells : spelled.toList = before ++ (scheme ++ schemeEnd ++ authority ++
    '/' :: (u.path ++ git ++ List.replicate slashes '/')) ++ after

end SourceUrl

theorem isWhiteSpace_toLower (c : Char) : isWhiteSpace c.toLower = isWhiteSpace c := by
  have value := toNat_toLower c
  unfold isWhiteSpace
  rw [decide_eq_decide, value]
  split <;> omega

theorem trim_around {before inner after : List Char} (blankBefore : ∀ c ∈ before, isWhiteSpace c)
    (blankAfter : ∀ c ∈ after, isWhiteSpace c)
    (starts : ∃ c rest, inner = c :: rest ∧ isWhiteSpace c = false)
    (ends : ∀ c, inner.getLast? = some c → isWhiteSpace c = false) :
    trim (before ++ inner ++ after) = inner := by
  obtain ⟨c, rest, shape, black⟩ := starts
  have dropped : (before ++ inner ++ after).dropWhile isWhiteSpace = inner ++ after := by
    rw [List.append_assoc, List.dropWhile_append_of_pos blankBefore, shape, List.cons_append,
      List.dropWhile_cons_of_neg (by simp [black])]
  rw [trim, dropped, rdropWhile_append_all blankAfter, rdropWhile_eq_self ends]

theorem head_of_trim {s : List Char} {c : Char} {rest : List Char} (tight : trim s = s)
    (shape : s = c :: rest) : isWhiteSpace c = false := by
  by_contra white
  have blank : isWhiteSpace c = true := by simpa using white
  have shorter : s.length ≤ rest.length := by
    calc s.length = (trim s).length := by rw [tight]
      _ ≤ (s.dropWhile isWhiteSpace).length :=
        (List.rdropWhile_prefix isWhiteSpace (s.dropWhile isWhiteSpace)).length_le
      _ ≤ rest.length := by
        rw [shape, List.dropWhile_cons_of_pos blank]
        exact (List.dropWhile_sublist isWhiteSpace).length_le
  rw [shape, List.length_cons] at shorter
  omega

theorem last_of_trim {s : List Char} {c : Char} (tight : trim s = s)
    (last : s.getLast? = some c) : isWhiteSpace c = false := by
  have again : s.rdropWhile isWhiteSpace = s := by
    rw [← tight, trim, List.rdropWhile_idempotent]
  exact last_of_rdropWhile again last

/-- A scheme without `://` does not help to spell one either. -/
theorem schemeEnd_first {scheme : List Char} (plain : ¬ schemeEnd <:+: scheme)
    (back : List Char) :
    findWord schemeEnd (scheme ++ (schemeEnd ++ back)) = some scheme.length := by
  apply findWord_behind (by simp [schemeEnd])
  intro k below start
  have some_ : scheme.drop k ≠ [] := by simpa using below
  obtain ⟨c, rest, shape⟩ := List.exists_cons_of_ne_nil some_
  rw [shape] at start
  -- The word would have to start in the scheme: all of it, or its first one or two letters.
  rcases rest with _ | ⟨d, _ | ⟨e, more⟩⟩
  · simp [schemeEnd] at start
  · simp [schemeEnd] at start
  · apply plain
    refine List.IsInfix.trans ?_ (List.drop_suffix k scheme).isInfix
    rw [shape]
    have three : schemeEnd <+: c :: d :: e :: more := by
      simpa [schemeEnd, List.cons_prefix_cons] using start
    exact three.isInfix

theorem pathStart_url {scheme authority rest : List Char} (plain : ¬ schemeEnd <:+: scheme)
    (flat : '/' ∉ authority) :
    pathStart (scheme ++ schemeEnd ++ authority ++ '/' :: rest) =
      (scheme ++ schemeEnd ++ authority).length := by
  have found := schemeEnd_first plain (authority ++ '/' :: rest)
  have behind : (scheme ++ (schemeEnd ++ (authority ++ '/' :: rest))).drop (scheme.length + 3) =
      authority ++ '/' :: rest := by
    rw [← List.append_assoc]
    exact List.drop_left' (by simp [schemeEnd])
  have slash : (authority ++ '/' :: rest).findIdx? (· == '/') = some authority.length := by
    have none_ : authority.findIdx? (· == '/') = none := by
      rw [List.findIdx?_eq_none_iff]
      intro c member
      simp only [beq_eq_false_iff_ne, ne_eq]
      rintro rfl
      exact flat member
    simp [List.findIdx?_append, none_, List.findIdx?_cons]
  rw [List.append_assoc, List.append_assoc, pathStart, found]
  simp only [behind, slash]
  simp [schemeEnd]
  omega

theorem lowered_url {scheme authority rest : List Char} (plain : ¬ schemeEnd <:+: scheme)
    (flat : '/' ∉ authority) : lowered (scheme ++ schemeEnd ++ authority ++ '/' :: rest) =
      toAsciiLowercase scheme ++ schemeEnd ++ toAsciiLowercase authority ++ '/' :: rest := by
  rw [lowered, pathStart_url plain flat, List.take_left', List.drop_left']
  · simp only [toAsciiLowercase, List.map_append]
    rfl
  · rfl
  · rfl

namespace SourceUrl
variable (u : SourceUrl)

theorem key_open : u.key.getLast? ≠ some '/' := by
  obtain ⟨init, c, shape⟩ := (List.eq_nil_or_concat u.path).resolve_left u.pathSome
  have last := u.pathOpen
  rw [List.concat_eq_append] at shape
  rw [shape, List.getLast?_concat] at last
  rw [key, shape, ← List.cons_append, ← List.append_assoc, List.getLast?_concat]
  exact last

theorem key_bare : ¬ dotGit <:+ u.key := by
  rw [key, suffix_behind (by decide)]
  exact u.pathBare

/-- Whatever stands behind the path is stripped, whatever the case in front of it. -/
theorem strip_key {git : List Char} (gitOrNot : git = [] ∨ git = dotGit) (slashes : Nat) :
    stripSuffix dotGit ((u.key ++ git ++ List.replicate slashes '/').rdropWhile (· = '/')) =
      u.key := by
  have slash : ∀ c ∈ List.replicate slashes '/', decide (c = '/') = true := by
    intro c member
    simpa using List.eq_of_mem_replicate member
  rw [rdropWhile_append_all slash]
  rcases gitOrNot with rfl | rfl
  · rw [List.append_nil, rdropWhile_eq_self, stripSuffix_of_not u.key_bare]
    intro c last
    have open_ := u.key_open
    rw [last] at open_
    simpa using open_
  · rw [rdropWhile_eq_self, stripSuffix_append]
    intro c last
    rw [List.getLast?_append] at last
    cases last
    rfl

variable {u}

theorem Spelling.schemePlain {spelled : String} (s : u.Spelling spelled) :
    ¬ schemeEnd <:+: s.scheme := by
  have plain : ∀ c ∈ schemeEnd, NoLetter c := List.all_iff_forall_prop.mp (by decide)
  rw [← infix_map_lower plain]
  have same := s.sameScheme
  unfold toAsciiLowercase at same
  rw [same, infix_map_lower plain]
  exact u.schemePlain

theorem Spelling.authorityPlain {spelled : String} (s : u.Spelling spelled) :
    '/' ∉ s.authority := by
  have plain : NoLetter '/' := by decide
  rw [← mem_map_lower plain]
  have same := s.sameAuthority
  unfold toAsciiLowercase at same
  rw [same, mem_map_lower plain]
  exact u.authorityPlain

theorem Spelling.starts {spelled : String} (s : u.Spelling spelled) (rest : List Char) :
    ∃ c more, s.scheme ++ schemeEnd ++ s.authority ++ rest = c :: more ∧
      isWhiteSpace c = false := by
  have same := s.sameScheme
  cases shape : s.scheme with
  | nil => exact ⟨':', _, rfl, by decide⟩
  | cons c more =>
    refine ⟨c, _, rfl, ?_⟩
    cases own : u.scheme with
    | nil => simp [shape, own, toAsciiLowercase] at same
    | cons d tail =>
      simp only [shape, own, toAsciiLowercase, List.map_cons, List.cons.injEq] at same
      have tight := u.tight
      simp only [own, List.cons_append] at tight
      rw [← isWhiteSpace_toLower, same.1, isWhiteSpace_toLower]
      exact head_of_trim tight rfl

theorem Spelling.ends {spelled : String} (s : u.Spelling spelled) (front : List Char) (c : Char)
    (last : (front ++ '/' :: (u.path ++ s.git ++ List.replicate s.slashes '/')).getLast? =
      some c) : isWhiteSpace c = false := by
  obtain ⟨init, d, shape⟩ := (List.eq_nil_or_concat u.path).resolve_left u.pathSome
  rw [List.concat_eq_append] at shape
  have own : isWhiteSpace d = false := by
    refine last_of_trim u.tight ?_
    rw [shape, ← List.cons_append, ← List.append_assoc, List.getLast?_concat]
  cases slashes : s.slashes with
  | succ n =>
    rw [slashes, List.replicate_succ', ← List.append_assoc, ← List.cons_append,
      ← List.append_assoc, List.getLast?_concat] at last
    cases last
    decide
  | zero =>
    rw [slashes, List.replicate_zero, List.append_nil] at last
    rcases s.gitOrNot with none_ | git
    · rw [none_, List.append_nil, shape, ← List.cons_append, ← List.append_assoc,
        List.getLast?_concat] at last
      cases last
      exact own
    · have split : dotGit = ['.', 'g', 'i'] ++ ['t'] := rfl
      rw [git, split, ← List.append_assoc, ← List.cons_append, ← List.append_assoc,
        List.getLast?_concat] at last
      cases last
      decide

theorem canonical_spelling {spelled : String} (s : u.Spelling spelled) :
    canonicalizeUrlForHash spelled = u.key := by
  have trimmed := trim_around s.blankBefore s.blankAfter (s.starts _) (s.ends _)
  rw [canonicalizeUrlForHash, s.spells, trimmed, lowered_url s.schemePlain s.authorityPlain,
    s.sameScheme, s.sameAuthority]
  have joined := u.strip_key s.gitOrNot s.slashes
  simpa [key] using joined

def own (u : SourceUrl) : u.Spelling u.text where
  before := []
  scheme := u.scheme
  authority := u.authority
  git := []
  slashes := 0
  after := []
  blankBefore := by simp
  sameScheme := rfl
  sameAuthority := rfl
  gitOrNot := Or.inl rfl
  blankAfter := by simp
  spells := by simp [text]

theorem schemePlain_lower (u : SourceUrl) : ¬ schemeEnd <:+: toAsciiLowercase u.scheme := by
  have plain : ∀ c ∈ schemeEnd, NoLetter c := List.all_iff_forall_prop.mp (by decide)
  rw [toAsciiLowercase, infix_map_lower plain]
  exact u.schemePlain

theorem authorityPlain_lower (u : SourceUrl) : '/' ∉ toAsciiLowercase u.authority := by
  rw [toAsciiLowercase, mem_map_lower (by decide)]
  exact u.authorityPlain

/-- The key is read back: the scheme ends at the first `://`, the authority at the next slash. -/
theorem key_eq_iff (u v : SourceUrl) : u.key = v.key ↔
    toAsciiLowercase u.scheme = toAsciiLowercase v.scheme ∧
      toAsciiLowercase u.authority = toAsciiLowercase v.authority ∧ u.path = v.path := by
  constructor
  · intro same
    simp only [key, List.append_assoc] at same
    have first := schemeEnd_first u.schemePlain_lower
      (toAsciiLowercase u.authority ++ '/' :: u.path)
    rw [same, schemeEnd_first v.schemePlain_lower] at first
    obtain ⟨schemes, behind⟩ := List.append_inj same (Option.some.inj first).symm
    have rests := List.append_cancel_left behind
    obtain ⟨authorities, paths⟩ :=
      split_first_injective u.authorityPlain_lower v.authorityPlain_lower rests
    exact ⟨schemes, authorities, paths⟩
  · rintro ⟨schemes, authorities, paths⟩
    rw [key, key, schemes, authorities, paths]

end SourceUrl

/-- Spellings of one URL share its directory, and canonical forms agree for spellings of
    URLs that differ in nothing but the case of scheme and authority. -/
theorem keys_identify_spellings (hash : List Char → UInt64) :
    (∀ (u : SourceUrl) spelled, u.Spelling spelled →
      cacheSubdirForUrl hash spelled = cacheSubdirForUrl hash u.text) ∧
    ∀ (u v : SourceUrl) spelled other, u.Spelling spelled → v.Spelling other →
      (canonicalizeUrlForHash spelled = canonicalizeUrlForHash other ↔
        toAsciiLowercase u.scheme = toAsciiLowercase v.scheme ∧
          toAsciiLowercase u.authority = toAsciiLowercase v.authority ∧ u.path = v.path) := by
  constructor
  · intro u spelled s
    unfold cacheSubdirForUrl
    rw [SourceUrl.canonical_spelling s, SourceUrl.canonical_spelling u.own]
  · intro u v spelled other s t
    rw [SourceUrl.canonical_spelling s, SourceUrl.canonical_spelling t]
    exact u.key_eq_iff v

def fooBar : SourceUrl where
  scheme := "https".toList
  authority := "github.com".toList
  path := "foo/bar".toList
  schemePlain := by decide +kernel
  authorityPlain := by decide +kernel
  pathSome := by decide +kernel
  pathOpen := by decide +kernel
  pathBare := by decide +kernel
  tight := by decide +kernel

def loudFooBar : fooBar.Spelling " HTTPS://GitHub.com/foo/bar.git//\n" where
  before := [' ']
  scheme := "HTTPS".toList
  authority := "GitHub.com".toList
  git := dotGit
  slashes := 2
  after := ['\n']
  blankBefore := List.all_iff_forall_prop.mp (by decide +kernel)
  sameScheme := by decide +kernel
  sameAuthority := by decide +kernel
  gitOrNot := by decide +kernel
  blankAfter := List.all_iff_forall_prop.mp (by decide +kernel)
  spells := by decide +kernel

theorem loud_foo_bar_shares_directory (hash : List Char → UInt64) :
    cacheSubdirForUrl hash " HTTPS://GitHub.com/foo/bar.git//\n" =
      cacheSubdirForUrl hash fooBar.text :=
  (keys_identify_spellings hash).1 fooBar _ loudFooBar

example : canonicalizeUrlForHash " HTTPS://GitHub.com/Foo/Bar.git/" =
    "https://github.com/Foo/Bar".toList := by decide +kernel

example : canonicalizeUrlForHash "git@GitHub.com:Foo/Bar.git" =
    "git@github.com:Foo/Bar".toList := by decide +kernel

end ProjgitCli

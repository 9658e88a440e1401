import Projgit.CliSource
import Projgit.Tables

/-!
The directory names the daemon and the command line give a clone, compared: when the two
programs agree about one URL, and when the daemon gives two URLs of one host one name.
-/
namespace ProjgitCli
open PlainText Utf8Bytes ProjgitRegistry

/-! ### Names as a text and a hash -/

/-- The number a run of hexadecimal digits stands for, behind digits read before. -/
def readHex (digits : List Char) (start : Nat) : Nat :=
  digits.foldl (fun n c => 16 * n + if c.toNat < 58 then c.toNat - 48 else c.toNat - 87) start

theorem readHex_append (front back : List Char) (start : Nat) :
    readHex (front ++ back) start = readHex back (readHex front start) := List.foldl_append

theorem readHex_digit {n : Nat} (small : n < 16) (start : Nat) :
    readHex [n.digitChar] start = 16 * start + n := by
  have value : ∀ n < 16, (if n.digitChar.toNat < 58 then n.digitChar.toNat - 48
      else n.digitChar.toNat - 87) = n := by decide
  exact congrArg (16 * start + ·) (value n small)

theorem readHex_toDigits (n : Nat) : readHex (Nat.toDigits 16 n) 0 = n := by
  induction n using Nat.strongRecOn with
  | ind n ih =>
    by_cases small : n < 16
    · rw [Nat.toDigits_of_lt_base small, readHex_digit small]
      omega
    · rw [Nat.toDigits_of_base_le (by omega) (by omega), readHex_append,
        ih (n / 16) (by omega), readHex_digit (by omega)]
      omega

theorem readHex_zeros (n : Nat) : readHex (List.replicate n '0') 0 = 0 := by
  induction n with
  | zero => rfl
  | succ n ih =>
    rw [List.replicate_succ', readHex_append, ih]
    rfl

theorem shortHash_length (h : UInt64) : (shortHash h).length = 16 := by
  have bound : h.toNat < 16 ^ 16 := UInt64.toNat_lt h
  have digits := (Nat.length_toDigits_le_iff (k := 16) (by omega) (by omega)).mpr bound
  rw [shortHash, List.length_leftpad]
  omega

theorem shortHash_injective {h k : UInt64} (same : shortHash h = shortHash k) : h = k := by
  have value : ∀ h : UInt64, readHex (shortHash h) 0 = h.toNat := by
    intro h
    rw [shortHash, List.leftpad, readHex_append, readHex_zeros, readHex_toDigits]
  apply UInt64.toNat_inj.mp
  rw [← value h, same, value k]

theorem name_eq_iff {base other : List Char} {h k : UInt64} :
    String.ofList (base ++ '-' :: shortHash h) = String.ofList (other ++ '-' :: shortHash k) ↔
      base = other ∧ h = k := by
  rw [String.ofList_inj]
  constructor
  · intro same
    have tails : ('-' :: shortHash h).length = ('-' :: shortHash k).length := by
      rw [List.length_cons, List.length_cons, shortHash_length, shortHash_length]
    obtain ⟨bases, hashes⟩ := List.append_inj' same tails
    exact ⟨bases, shortHash_injective (List.cons.inj hashes).2⟩
  · rintro ⟨rfl, rfl⟩
    rfl

/-! ### The two normal forms -/

def dropGits (s : List Char) : List Char := (trimGits s.reverse).reverse

theorem dropGits_append_git (s : List Char) : dropGits (s ++ dotGit) = dropGits s := by
  rw [dropGits, List.reverse_append]
  rfl

theorem trimGits_suffix (s : List Char) : trimGits s <:+ s := by
  induction s using trimGits.induct with
  | case1 rest ih =>
    rw [trimGits]
    exact ih.trans ⟨['t', 'i', 'g', '.'], rfl⟩
  | case2 s other => rw [trimGits.eq_2 s other]

theorem mem_trimGits_or {c : Char} {s : List Char} (member : c ∈ s) :
    c ∈ trimGits s ∨ c ∈ dotGit := by
  induction s using trimGits.induct with
  | case1 rest ih =>
    rw [trimGits]
    simp only [List.mem_cons] at member
    rcases member with rfl | rfl | rfl | rfl | later
    · exact Or.inr (by decide)
    · exact Or.inr (by decide)
    · exact Or.inr (by decide)
    · exact Or.inr (by decide)
    · exact ih later
  | case2 s other =>
    rw [trimGits.eq_2 s other]
    exact Or.inl member

theorem mem_of_dropGits {c : Char} {s : List Char} (member : c ∈ dropGits s) : c ∈ s := by
  simpa using (trimGits_suffix s.reverse).subset (by simpa [dropGits] using member)

theorem mem_dropGits_or {c : Char} {s : List Char} (member : c ∈ s) :
    c ∈ dropGits s ∨ c ∈ dotGit := by
  simpa [dropGits] using mem_trimGits_or (s := s.reverse) (by simpa using member)

theorem dropGits_stripSuffix (s : List Char) : dropGits (stripSuffix dotGit s) = dropGits s := by
  rcases stripSuffix_cases dotGit s with has | ⟨-, same⟩
  · rw [has, stripSuffix_append, dropGits_append_git]
  · rw [same]

def isSlash (c : Char) : Bool := decide (c = '/')

def lastSegment (s : List Char) : Option (List Char) := lastPart isSlash s

theorem daemon_canonical (url : String) : ProjgitRegistry.canonicalizeUrlForHash url =
    stripSuffix dotGit ((toAsciiLowercase (trim url.toList)).rdropWhile (· = '/')) := rfl

theorem daemon_name (hash : List Char → UInt64) (url : String) :
    ProjgitRegistry.cacheSubdirForUrl hash url =
      String.ofList (dropGits ((lastSegment url.toList).getD "repo".toList) ++
        '-' :: shortHash (hash (ProjgitRegistry.canonicalizeUrlForHash url))) := by
  unfold ProjgitRegistry.cacheSubdirForUrl ProjgitRegistry.basename
  rw [List.splitOn_eq_splitOnP]
  rfl

def sanitize (s : List Char) : List Char := s.map fun c => if isSafe c then c else '_'

theorem cli_name (hash : List Char → UInt64) (url : String) :
    cacheSubdirForUrl hash url = String.ofList (sanitize (basename (canonicalizeUrlForHash url)) ++
      '-' :: shortHash (hash (canonicalizeUrlForHash url))) := rfl

theorem cli_basename (canonical : List Char) : basename canonical =
    dropGits ((lastPart isPathSeparator canonical).getD "repo".toList) := by
  have whole := List.rdropWhile_append_rtakeWhile (p := (· = '/')) (l := canonical)
  have seps : ∀ c ∈ canonical.rtakeWhile (· = '/'), isPathSeparator c := by
    intro c member
    have slash : c = '/' := by simpa using List.mem_rtakeWhile_imp member
    rw [slash]
    rfl
  have same := lastPart_append_seps (canonical.rdropWhile (· = '/')) seps
  rw [whole] at same
  rw [same]
  rfl

/-! ### One URL in the two programs -/

def casedPart (url : String) : List Char :=
  (trim url.toList).drop (pathStart (trim url.toList))

theorem lowered_lower (trimmed : List Char) :
    toAsciiLowercase (lowered trimmed) = toAsciiLowercase trimmed := by
  unfold lowered toAsciiLowercase
  rw [List.map_append, map_lower_lower, ← List.map_append, List.take_append_drop]

theorem lowered_eq_iff (trimmed : List Char) : lowered trimmed = toAsciiLowercase trimmed ↔
    ∀ c ∈ trimmed.drop (pathStart trimmed), c.isUpper = false := by
  have split : toAsciiLowercase trimmed = toAsciiLowercase (trimmed.take (pathStart trimmed)) ++
      toAsciiLowercase (trimmed.drop (pathStart trimmed)) := by
    unfold toAsciiLowercase
    rw [← List.map_append, List.take_append_drop]
  rw [lowered, split, List.append_cancel_left_eq, eq_comm, toAsciiLowercase, map_lower_eq_self]

/-- Stripping before or after lowercasing comes to the same only where lowercasing changes
    nothing, for otherwise the word is found in one of the two alone. -/
theorem stripSuffix_lower_iff (m : List Char) :
    stripSuffix dotGit (toAsciiLowercase m) = stripSuffix dotGit m ↔
      toAsciiLowercase m = m := by
  constructor
  · intro same
    rcases stripSuffix_cases dotGit m with has | ⟨lacks, kept⟩
    · have lowered_has : toAsciiLowercase m =
          toAsciiLowercase (stripSuffix dotGit m) ++ dotGit := by
        conv_lhs => rw [has]
        unfold toAsciiLowercase
        rw [List.map_append]
        rfl
      rw [lowered_has, stripSuffix_append] at same
      rw [lowered_has, same]
      exact has.symm
    · rcases stripSuffix_cases dotGit (toAsciiLowercase m) with has | ⟨-, kept'⟩
      · have lengths := congrArg List.length has
        rw [same, kept, List.length_append, toAsciiLowercase, List.length_map] at lengths
        simp [dotGit] at lengths
      · rw [kept, kept'] at same
        exact same
  · intro same
    rw [same]

theorem rdropWhile_slash_lower (s : List Char) : (toAsciiLowercase s).rdropWhile (· = '/') =
    toAsciiLowercase (s.rdropWhile (· = '/')) := rdropWhile_map_lower (by decide)

theorem canonical_eq_iff (url : String) :
    ProjgitRegistry.canonicalizeUrlForHash url = canonicalizeUrlForHash url ↔
      ∀ c ∈ casedPart url, c.isUpper = false := by
  rw [daemon_canonical, canonicalizeUrlForHash, casedPart, ← lowered_eq_iff,
    ← lowered_lower (trim url.toList), rdropWhile_slash_lower, stripSuffix_lower_iff]
  constructor
  · intro same
    -- The slashes behind the kept part are lower case already.
    have whole := List.rdropWhile_append_rtakeWhile (p := (· = '/')) (l := lowered (trim url.toList))
    have slashes : toAsciiLowercase ((lowered (trim url.toList)).rtakeWhile (· = '/')) =
        (lowered (trim url.toList)).rtakeWhile (· = '/') := by
      rw [toAsciiLowercase, map_lower_eq_self]
      intro c member
      have slash : c = '/' := by simpa using List.mem_rtakeWhile_imp member
      rw [slash]
      rfl
    have parts : toAsciiLowercase (lowered (trim url.toList)) = lowered (trim url.toList) := by
      rw [← whole, toAsciiLowercase, List.map_append]
      exact congrArg₂ (· ++ ·) same slashes
    exact parts.symm
  · intro same
    rw [← rdropWhile_slash_lower, ← same]

def beforeLast (s : List Char) : List Char := (s.rdropWhile isSlash).rdropWhile fun c => !isSlash c

/-- When the two programs name the directory of a URL alike: no capital in the part whose
    case the command line keeps, a last segment in which nothing is replaced, and, where
    that segment is a bare `.git`, another one in front of it. -/
structure SameDirectory (url : String) : Prop where
  lowerPath : ∀ c ∈ casedPart url, c.isUpper = false
  plainName : ∀ name, lastSegment url.toList = some name →
    ∀ c ∈ name, isSafe c = true ∧ c.isUpper = false
  gitName : lastSegment url.toList = some dotGit →
    ∃ part, lastPart isPathSeparator (beforeLast (trim url.toList)) = some part ∧
      dropGits (toAsciiLowercase part) = []

theorem isSafe_range {c : Char} (safe : isSafe c = true) :
    c.toNat = 45 ∨ c.toNat = 46 ∨ 48 ≤ c.toNat ∧ c.toNat ≤ 57 ∨
      65 ≤ c.toNat ∧ c.toNat ≤ 122 := by
  simp only [isSafe, Char.isAlphanum, Char.isAlpha, Char.isUpper, Char.isLower, Char.isDigit,
    Bool.or_eq_true, Bool.and_eq_true, decide_eq_true_eq, beq_iff_eq, ge_iff_le,
    UInt32.le_iff_toNat_le, Char.toNat_val] at safe
  have a : 'A'.toNat = 65 := rfl
  have z : 'Z'.toNat = 90 := rfl
  have a' : 'a'.toNat = 97 := rfl
  have z' : 'z'.toNat = 122 := rfl
  have zero : '0'.toNat = 48 := rfl
  have nine : '9'.toNat = 57 := rfl
  rcases safe with ((letter | rfl) | rfl) | rfl
  · omega
  · decide
  · decide
  · decide

theorem not_white_of_safe {c : Char} (safe : isSafe c = true) : isWhiteSpace c = false := by
  have range := isSafe_range safe
  rw [isWhiteSpace, decide_eq_false_iff_not]
  omega

theorem not_separator_of_safe {c : Char} (safe : isSafe c = true) :
    isPathSeparator c = false := by
  have range := isSafe_range safe
  by_contra sep
  simp only [isPathSeparator, Bool.not_eq_false, Bool.or_eq_true, beq_iff_eq] at sep
  rcases sep with rfl | rfl
  · exact absurd range (by decide)
  · exact absurd range (by decide)

theorem sanitize_safe {s : List Char} (safe : ∀ c ∈ s, isSafe c = true) : sanitize s = s := by
  rw [sanitize]
  calc s.map (fun c => if isSafe c then c else '_') = s.map id :=
        List.map_congr_left fun c member => if_pos (safe c member)
    _ = s := List.map_id s

theorem safe_of_sanitize {c : Char} {s : List Char} (member : c ∈ sanitize s) :
    isSafe c = true ∧ (c ∈ s ∨ c = '_') := by
  obtain ⟨d, inside, rfl⟩ := List.mem_map.mp member
  by_cases safe : isSafe d = true
  · rw [if_pos safe]
    exact ⟨safe, Or.inl inside⟩
  · rw [if_neg safe]
    exact ⟨rfl, Or.inr rfl⟩

theorem beforeLast_of_ends {s front name back : List Char}
    (ends : EndsIn isSlash s front name back) : beforeLast s = front := by
  have plain : ∀ c ∈ name, (!isSlash c) = true := by
    intro c member
    rw [ends.plain c member]
    rfl
  rw [beforeLast, ends.rdropWhile, rdropWhile_append_all plain]
  apply rdropWhile_eq_self
  intro c last
  rcases ends.opens with rfl | ⟨init, d, rfl, sep⟩
  · cases last
  · rw [List.getLast?_concat] at last
    cases last
    rw [sep]
    rfl

theorem ends_trim {s front name back : List Char} (ends : EndsIn isSlash s front name back)
    (black : ∀ c ∈ name, isWhiteSpace c = false) :
    ∃ before, EndsIn isSlash (trim s) before name back := by
  have slash_black : ∀ c, isSlash c = true → isWhiteSpace c = false := by
    intro c slash
    rw [show c = '/' by simpa [isSlash] using slash]
    decide
  have closes : ∀ before : List Char, (before ++ (name ++ back)).rdropWhile isWhiteSpace =
      before ++ (name ++ back) := by
    intro before
    apply rdropWhile_eq_self
    intro c last
    have member : c ∈ name ++ back := by
      have some_ : name ++ back ≠ [] := by simp [ends.some_]
      rw [List.getLast?_append_of_ne_nil _ some_] at last
      exact List.mem_of_getLast? last
    rcases List.mem_append.mp member with inside | behind
    · exact black c inside
    · exact slash_black c (ends.seps c behind)
  rcases ends.opens with rfl | ⟨init, c, rfl, sep⟩
  · refine ⟨[], ?_, ends.some_, ends.plain, ends.seps, Or.inl rfl⟩
    obtain ⟨d, rest, shape⟩ := List.exists_cons_of_ne_nil ends.some_
    have starts : (name ++ back).dropWhile isWhiteSpace = name ++ back := by
      rw [shape]
      exact List.dropWhile_cons_of_neg (by simp [black d (by simp [shape])])
    rw [trim, ends.whole, List.nil_append, starts]
    exact closes []
  · refine ⟨init.dropWhile isWhiteSpace ++ [c], ?_, ends.some_, ends.plain, ends.seps,
      Or.inr ⟨_, c, rfl, sep⟩⟩
    rw [trim, ends.whole, List.append_assoc, List.singleton_append,
      dropWhile_behind (slash_black c sep)]
    have all := closes (init.dropWhile isWhiteSpace ++ [c])
    simpa using all

/-- Only the last segment can lose its `.git`. -/
theorem canonical_of_ends {url : String} {front name back : List Char}
    (ends : EndsIn isSlash (trim url.toList) front name back)
    (low : ∀ c ∈ name, c.isUpper = false) : ProjgitRegistry.canonicalizeUrlForHash url =
      toAsciiLowercase front ++ stripSuffix dotGit name := by
  have slash_lower : ∀ c, isSlash c.toLower = isSlash c := by
    intro c
    simp only [isSlash, lower_eq_iff (show NoLetter '/' by decide)]
  have lowered_ends := ends.map slash_lower
  rw [map_lower_eq_self.mpr low] at lowered_ends
  have form : ProjgitRegistry.canonicalizeUrlForHash url =
      stripSuffix dotGit (toAsciiLowercase front ++ name) :=
    congrArg (stripSuffix dotGit) lowered_ends.rdropWhile
  rw [form]
  rcases lowered_ends.opens with none_ | ⟨init, c, shape, sep⟩
  · rw [toAsciiLowercase, none_, List.nil_append, List.nil_append]
  · have slash : c = '/' := by simpa [isSlash] using sep
    rw [toAsciiLowercase, shape, slash, List.append_assoc, List.singleton_append,
      stripSuffix_behind (by decide), List.append_assoc, List.singleton_append]

theorem separator_lower (c : Char) : isPathSeparator c.toLower = isPathSeparator c := by
  rw [Bool.eq_iff_iff]
  simp only [isPathSeparator, Bool.or_eq_true, beq_iff_eq,
    lower_eq_iff (show NoLetter '/' by decide), lower_eq_iff (show NoLetter ':' by decide)]

theorem separator_of_slash {c : Char} (slash : isSlash c = true) : isPathSeparator c = true := by
  rw [show c = '/' by simpa [isSlash] using slash]
  rfl

theorem mem_daemon_canonical {url : String} {c : Char}
    (member : c ∈ ProjgitRegistry.canonicalizeUrlForHash url) :
    ∃ d ∈ url.toList, d.toLower = c := by
  have inside : c ∈ (toAsciiLowercase (trim url.toList)).rdropWhile (· = '/') := by
    rcases stripSuffix_cases dotGit
      ((toAsciiLowercase (trim url.toList)).rdropWhile (· = '/')) with has | ⟨-, same⟩
    · rw [has]
      exact List.mem_append_left _ member
    · rw [← same]
      exact member
  have kept : c ∈ toAsciiLowercase (trim url.toList) :=
    (List.rdropWhile_prefix _ _).subset inside
  obtain ⟨d, among, same⟩ := List.mem_map.mp kept
  have untrimmed : d ∈ url.toList.dropWhile isWhiteSpace :=
    (List.rdropWhile_prefix _ _).subset among
  exact ⟨d, (List.dropWhile_sublist _).subset untrimmed, same⟩

theorem mem_basename {canonical : List Char} {c : Char} (member : c ∈ basename canonical) :
    c ∈ canonical ∨ c ∈ "repo".toList := by
  rw [cli_basename] at member
  have inside := mem_of_dropGits member
  cases found : lastPart isPathSeparator canonical with
  | none =>
    rw [found] at inside
    exact Or.inr inside
  | some part =>
    rw [found] at inside
    obtain ⟨front, back, ends⟩ := ends_of_lastPart found
    rw [ends.whole]
    exact Or.inl (List.mem_append_right front (List.mem_append_left back inside))

theorem dropGits_repo : dropGits "repo".toList = "repo".toList := by decide

theorem git_basename (front : List Char) : sanitize (basename (toAsciiLowercase front)) = [] ↔
    ∃ part, lastPart isPathSeparator front = some part ∧
      dropGits (toAsciiLowercase part) = [] := by
  rw [cli_basename, toAsciiLowercase, lastPart_map separator_lower, sanitize, List.map_eq_nil_iff]
  cases found : lastPart isPathSeparator front with
  | none =>
    rw [Option.map_none, Option.getD_none, dropGits_repo]
    simp
  | some part => simp [toAsciiLowercase]

section
variable {url : String} {front name back : List Char}

theorem basename_iff (agree : ProjgitRegistry.canonicalizeUrlForHash url =
      canonicalizeUrlForHash url)
    (ends : EndsIn isSlash (trim url.toList) front name back)
    (plain : ∀ c ∈ name, isSafe c = true ∧ c.isUpper = false) :
    dropGits name = sanitize (basename (canonicalizeUrlForHash url)) ↔
      (name = dotGit → ∃ part, lastPart isPathSeparator front = some part ∧
        dropGits (toAsciiLowercase part) = []) := by
  have form := canonical_of_ends ends fun c member => (plain c member).2
  rw [agree] at form
  rw [form]
  by_cases bare : stripSuffix dotGit name = []
  · have git : name = dotGit := by
      rcases stripSuffix_cases dotGit name with has | ⟨-, same⟩
      · simpa [bare] using has
      · exact absurd (same.symm.trans bare) ends.some_
    rw [bare, List.append_nil, ← dropGits_stripSuffix name, bare]
    have empty : dropGits [] = [] := rfl
    rw [empty, eq_comm, git_basename]
    simp [git]
  · have inside : ∀ c ∈ stripSuffix dotGit name, isSafe c = true := by
      intro c member
      rcases stripSuffix_cases dotGit name with has | ⟨-, same⟩
      · exact (plain c (by rw [has]; exact List.mem_append_left _ member)).1
      · exact (plain c (by rw [← same]; exact member)).1
    have opens : toAsciiLowercase front = [] ∨
        ∃ init c, toAsciiLowercase front = init ++ [c] ∧ isPathSeparator c = true := by
      rcases ends.opens with rfl | ⟨init, c, rfl, sep⟩
      · exact Or.inl rfl
      · exact Or.inr ⟨init.map Char.toLower, c.toLower, by simp [toAsciiLowercase],
          by rw [separator_lower]; exact separator_of_slash sep⟩
    have found := lastPart_behind bare (fun c member => not_separator_of_safe (inside c member))
      opens
    have other : name ≠ dotGit := by
      rintro rfl
      exact bare (stripSuffix_append dotGit [])
    rw [cli_basename, found, Option.getD_some, dropGits_stripSuffix,
      sanitize_safe fun c member => (plain c (mem_of_dropGits member)).1]
    simp [other]

/-- The daemon's own name, once it is the command line's, holds no capital and nothing unsafe. -/
theorem plain_of_agreeing (agree : ProjgitRegistry.canonicalizeUrlForHash url =
      canonicalizeUrlForHash url)
    (bases : dropGits name = sanitize (basename (canonicalizeUrlForHash url))) :
    ∀ c ∈ name, isSafe c = true ∧ c.isUpper = false := by
  intro c member
  rcases mem_dropGits_or member with kept | git
  · rw [bases] at kept
    obtain ⟨safe, inside | rfl⟩ := safe_of_sanitize kept
    · refine ⟨safe, ?_⟩
      rcases mem_basename inside with canonical | repo
      · rw [← agree] at canonical
        obtain ⟨d, -, rfl⟩ := mem_daemon_canonical canonical
        exact Char.isUpper_toLower_eq_false d
      · have low : ∀ c ∈ "repo".toList, c.isUpper = false :=
          List.all_iff_forall_prop.mp (by decide)
        exact low c repo
    · exact ⟨safe, by decide⟩
  · have plain : ∀ c ∈ dotGit, isSafe c = true ∧ c.isUpper = false :=
      List.all_iff_forall_prop.mp (by decide)
    exact plain c git

theorem repo_of_slashes (slashes : lastSegment url.toList = none) :
    basename (ProjgitRegistry.canonicalizeUrlForHash url) = "repo".toList := by
  have none_ : lastPart isPathSeparator (ProjgitRegistry.canonicalizeUrlForHash url) = none := by
    apply lastPart_of_seps
    intro c member
    obtain ⟨d, inside, rfl⟩ := mem_daemon_canonical member
    rw [separator_lower]
    exact separator_of_slash (seps_of_lastPart slashes d inside)
  rw [cli_basename, none_, Option.getD_none, dropGits_repo]

end

/-- Hashes of different canonical forms may collide; the hypothesis is that these two do not. -/
theorem names_agree_iff (hash : List Char → UInt64) (url : String)
    (collisionFree : hash (ProjgitRegistry.canonicalizeUrlForHash url) =
        hash (canonicalizeUrlForHash url) →
      ProjgitRegistry.canonicalizeUrlForHash url = canonicalizeUrlForHash url) :
    ProjgitRegistry.cacheSubdirForUrl hash url = cacheSubdirForUrl hash url ↔
      SameDirectory url := by
  rw [daemon_name, cli_name, name_eq_iff]
  constructor
  · rintro ⟨bases, hashes⟩
    have agree := collisionFree hashes
    have plain : ∀ name, lastSegment url.toList = some name →
        ∀ c ∈ name, isSafe c = true ∧ c.isUpper = false := by
      intro name found
      rw [found, Option.getD_some] at bases
      exact plain_of_agreeing agree bases
    refine ⟨(canonical_eq_iff url).mp agree, plain, ?_⟩
    intro found
    obtain ⟨front, back, ends⟩ := ends_of_lastPart found
    obtain ⟨before, trimmed⟩ := ends_trim ends
      fun c member => not_white_of_safe (plain _ found c member).1
    rw [found, Option.getD_some] at bases
    rw [beforeLast_of_ends trimmed]
    exact (basename_iff agree trimmed (plain _ found)).mp bases rfl
  · intro same
    have agree := (canonical_eq_iff url).mpr same.lowerPath
    refine ⟨?_, congrArg hash agree⟩
    cases found : lastSegment url.toList with
    | none =>
      rw [Option.getD_none, ← agree, repo_of_slashes found, dropGits_repo]
      decide
    | some name =>
      have plain := same.plainName name found
      obtain ⟨front, back, ends⟩ := ends_of_lastPart found
      obtain ⟨before, trimmed⟩ := ends_trim ends
        fun c member => not_white_of_safe (plain c member).1
      refine (basename_iff agree trimmed plain).mpr ?_
      rintro rfl
      have twice := same.gitName found
      rwa [beforeLast_of_ends trimmed] at twice

/-- `DefaultHasher` on a string: its bytes, then one more. -/
def strHash (s : List Char) : UInt64 :=
  ProjgitTables.sipHash (s.flatMap String.utf8EncodeChar ++ [0xFF])

theorem capital_path_splits :
    looksLikeUrl "https://github.com/Foo/bar" = true ∧
      ProjgitRegistry.cacheSubdirForUrl strHash "https://github.com/Foo/bar" ≠
        cacheSubdirForUrl strHash "https://github.com/Foo/bar" := by
  decide +kernel

theorem foo_bar_shared :
    ProjgitRegistry.cacheSubdirForUrl strHash "https://github.com/foo/bar.git" =
      cacheSubdirForUrl strHash "https://github.com/foo/bar.git" := by
  have last : lastSegment "https://github.com/foo/bar.git".toList = some "bar.git".toList := by
    decide +kernel
  refine (names_agree_iff strHash _ fun _ => by decide +kernel).mpr
    ⟨List.all_iff_forall_prop.mp (by decide +kernel), ?_, ?_⟩
  · intro name found
    rw [last] at found
    cases found
    exact List.all_iff_forall_prop.mp (by decide +kernel)
  · intro found
    rw [last] at found
    cases found

end ProjgitCli

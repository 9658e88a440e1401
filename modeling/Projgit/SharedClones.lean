import Projgit.CloneNames

/-!
Two repositories of one host in the daemon's cache: exactly which pairs of paths its
lowercasing canonical form and its own choice of a base name send to one directory.
-/
namespace ProjgitRegistry
open PlainText ProjgitCli

def remote (scheme authority path : List Char) : String :=
  String.ofList (scheme ++ schemeEnd ++ authority ++ '/' :: path)

/-- A path without the slashes at its end, then without one `.git`. -/
def stripPath (path : List Char) : List Char := stripSuffix dotGit (path.rdropWhile isSlash)

def keptPath (path : List Char) : List Char := (path.rdropWhile isWhiteSpace).rdropWhile isSlash

/-- The last segment of the path, or of what stands in front of it. -/
def segmentOf (scheme authority path : List Char) : Option (List Char) :=
  (lastSegment path).or (lastSegment (scheme ++ schemeEnd ++ authority))

/-- Paths that differ in ASCII case alone, up to what is dropped at their ends, while their
    last segments are spelled alike. -/
structure Conflated (scheme authority path other : List Char) : Prop where
  bothSome : keptPath path = [] ↔ keptPath other = []
  sameFolded : stripSuffix dotGit (toAsciiLowercase (keptPath path)) =
    stripSuffix dotGit (toAsciiLowercase (keptPath other))
  sameSegment : (segmentOf scheme authority path).map dropGits =
    (segmentOf scheme authority other).map dropGits

section
variable (scheme authority path other : List Char)

theorem segment_remote : lastSegment (remote scheme authority path).toList =
    segmentOf scheme authority path := by
  rw [remote, String.toList_ofList, lastSegment, lastPart_split rfl]
  rfl

theorem exists_segment : ∃ name, segmentOf scheme authority path = some name := by
  have host : lastSegment (scheme ++ schemeEnd ++ authority) ≠ none := by
    intro none_
    have colon := seps_of_lastPart none_ ':' (by simp [schemeEnd])
    exact absurd colon (by decide)
  obtain ⟨name, found⟩ := Option.ne_none_iff_exists'.mp host
  rw [segmentOf, found]
  cases lastSegment path with
  | none => exact ⟨name, rfl⟩
  | some own => exact ⟨own, rfl⟩

theorem trim_remote : trim (remote scheme authority path).toList =
    (scheme ++ schemeEnd ++ authority).dropWhile isWhiteSpace ++
      '/' :: path.rdropWhile isWhiteSpace := by
  have black : isWhiteSpace '/' = false := by decide
  rw [remote, String.toList_ofList, trim, dropWhile_behind black, rdropWhile_behind black]

/-- The canonical form of a URL that has a path, in front of which nothing is dropped. -/
theorem canonical_some {front : List Char}
    (host : front = (scheme ++ schemeEnd ++ authority).dropWhile isWhiteSpace)
    (some_ : keptPath path ≠ []) : canonicalizeUrlForHash (remote scheme authority path) =
      toAsciiLowercase front ++
        '/' :: stripSuffix dotGit (toAsciiLowercase (keptPath path)) := by
  have lowered_ : toAsciiLowercase (front ++ '/' :: path.rdropWhile isWhiteSpace) =
      (toAsciiLowercase front ++ ['/']) ++ toAsciiLowercase (path.rdropWhile isWhiteSpace) := by
    simp [toAsciiLowercase]
  have kept : (toAsciiLowercase (path.rdropWhile isWhiteSpace)).rdropWhile (· = '/') =
      toAsciiLowercase (keptPath path) := rdropWhile_slash_lower _
  have nonempty : toAsciiLowercase (keptPath path) ≠ [] := by
    simpa [toAsciiLowercase] using some_
  rw [daemon_canonical, trim_remote, ← host, lowered_,
    rdropWhile_append_some (by rwa [kept]), kept, List.append_assoc, List.singleton_append,
    stripSuffix_behind (by decide)]

/-- The canonical form of a URL without a path, which is shorter than any with one. -/
theorem canonical_none {front : List Char}
    (host : front = (scheme ++ schemeEnd ++ authority).dropWhile isWhiteSpace)
    (none_ : keptPath path = []) : canonicalizeUrlForHash (remote scheme authority path) =
      stripSuffix dotGit ((toAsciiLowercase front).rdropWhile (· = '/')) := by
  have slashes : ∀ c ∈ toAsciiLowercase ('/' :: path.rdropWhile isWhiteSpace),
      decide (c = '/') = true := by
    intro c member
    obtain ⟨d, inside, rfl⟩ := List.mem_map.mp member
    have slash : isSlash d = true := by
      rcases List.mem_cons.mp inside with rfl | behind
      · rfl
      · exact List.rdropWhile_eq_nil_iff.mp none_ d behind
    rw [show d = '/' by simpa [isSlash] using slash]
    rfl
  have split : toAsciiLowercase (front ++ '/' :: path.rdropWhile isWhiteSpace) =
      toAsciiLowercase front ++ toAsciiLowercase ('/' :: path.rdropWhile isWhiteSpace) := by
    simp [toAsciiLowercase]
  rw [daemon_canonical, trim_remote, ← host, split, rdropWhile_append_all slashes]

theorem stripSuffix_length_le (s : List Char) : (stripSuffix dotGit s).length ≤ s.length := by
  rcases stripSuffix_cases dotGit s with has | ⟨-, same⟩
  · conv_rhs => rw [has]
    rw [List.length_append]
    omega
  · rw [same]

theorem canonical_shorter {front : List Char}
    (host : front = (scheme ++ schemeEnd ++ authority).dropWhile isWhiteSpace)
    (some_ : keptPath path ≠ []) (none_ : keptPath other = []) :
    canonicalizeUrlForHash (remote scheme authority path) ≠
      canonicalizeUrlForHash (remote scheme authority other) := by
  intro same
  rw [canonical_some scheme authority path host some_,
    canonical_none scheme authority other host none_] at same
  have shorter := (stripSuffix_length_le ((toAsciiLowercase front).rdropWhile (· = '/'))).trans
    (List.rdropWhile_prefix _ (toAsciiLowercase front)).length_le
  rw [← same, List.length_append, List.length_cons] at shorter
  omega

theorem canonical_remote_eq_iff : canonicalizeUrlForHash (remote scheme authority path) =
      canonicalizeUrlForHash (remote scheme authority other) ↔
    (keptPath path = [] ↔ keptPath other = []) ∧
      stripSuffix dotGit (toAsciiLowercase (keptPath path)) =
        stripSuffix dotGit (toAsciiLowercase (keptPath other)) := by
  by_cases one : keptPath path = []
  · by_cases two : keptPath other = []
    · rw [canonical_none scheme authority path rfl one,
        canonical_none scheme authority other rfl two]
      simp [one, two]
    · have apart := canonical_shorter scheme authority other path rfl two one
      simp [Ne.symm apart, one, two]
  · by_cases two : keptPath other = []
    · have apart := canonical_shorter scheme authority path other rfl one two
      simp [apart, one, two]
    · rw [canonical_some scheme authority path rfl one,
        canonical_some scheme authority other rfl two]
      simp [one, two]

variable (hash : List Char → UInt64)

theorem directories_equal_iff
    (collisionFree : hash (canonicalizeUrlForHash (remote scheme authority path)) =
        hash (canonicalizeUrlForHash (remote scheme authority other)) →
      canonicalizeUrlForHash (remote scheme authority path) =
        canonicalizeUrlForHash (remote scheme authority other)) :
    cacheSubdirForUrl hash (remote scheme authority path) =
        cacheSubdirForUrl hash (remote scheme authority other) ↔
      Conflated scheme authority path other := by
  obtain ⟨name, found⟩ := exists_segment scheme authority path
  obtain ⟨name', found'⟩ := exists_segment scheme authority other
  rw [daemon_name, daemon_name, name_eq_iff, segment_remote, segment_remote]
  constructor
  · rintro ⟨bases, hashes⟩
    obtain ⟨bothSome, sameFolded⟩ :=
      (canonical_remote_eq_iff scheme authority path other).mp (collisionFree hashes)
    refine ⟨bothSome, sameFolded, ?_⟩
    rw [found, found'] at bases ⊢
    exact congrArg some bases
  · intro conflated
    have same := (canonical_remote_eq_iff scheme authority path other).mpr
      ⟨conflated.bothSome, conflated.sameFolded⟩
    refine ⟨?_, congrArg hash same⟩
    have segments := conflated.sameSegment
    rw [found, found'] at segments ⊢
    exact Option.some.inj segments

theorem clones_apart_iff
    (collisionFree : hash (canonicalizeUrlForHash (remote scheme authority path)) =
        hash (canonicalizeUrlForHash (remote scheme authority other)) →
      canonicalizeUrlForHash (remote scheme authority path) =
        canonicalizeUrlForHash (remote scheme authority other)) :
    (stripPath path ≠ stripPath other →
      cacheSubdirForUrl hash (remote scheme authority path) ≠
        cacheSubdirForUrl hash (remote scheme authority other)) ↔
      (stripPath path ≠ stripPath other → ¬ Conflated scheme authority path other) := by
  have equal := directories_equal_iff scheme authority path other hash collisionFree
  exact imp_congr_right fun _ => not_congr equal

end

theorem capital_segment_conflated :
    remote "https".toList "github.com".toList "Foo/bar".toList = "https://github.com/Foo/bar" ∧
      stripPath "Foo/bar".toList ≠ stripPath "foo/bar".toList ∧
      cacheSubdirForUrl strHash (remote "https".toList "github.com".toList "Foo/bar".toList) =
        cacheSubdirForUrl strHash (remote "https".toList "github.com".toList "foo/bar".toList) := by
  decide +kernel

theorem foo_and_baz_apart :
    cacheSubdirForUrl strHash (remote "https".toList "github.com".toList "foo/bar".toList) ≠
      cacheSubdirForUrl strHash (remote "https".toList "github.com".toList "baz/bar".toList) := by
  refine (clones_apart_iff "https".toList "github.com".toList "foo/bar".toList "baz/bar".toList
    strHash (fun same => absurd same (by decide +kernel))).mpr
    (fun _ conflated => ?_) (by decide +kernel)
  exact absurd conflated.sameFolded (by decide +kernel)

end ProjgitRegistry

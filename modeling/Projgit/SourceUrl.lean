import Mathlib.Data.List.Infix
import Mathlib.Data.List.DropRight
import Projgit.Protocol

/-!
Where a source lives on disk (`server.rs`): which strings are URLs, the directory name under
the cache that a URL is cloned to, and the paths around it. Strings are worked on as lists of
characters. `DefaultHasher` is a parameter.
-/
namespace ProjgitRegistry
open Utf8Bytes ProjgitProtocol

/-- `Path::display`. -/
def displayPath (p : PathBuf) : String := (pathStr (fromUtf8Lossy p)).getD ""

def join (base path : PathBuf) : PathBuf :=
  if path.head? = some 0x2F then path
  else match base.getLast? with
    | none => path
    | some last => if last = 0x2F then base ++ path else base ++ 0x2F :: path

def looksLikeUrl (s : String) : Bool :=
  decide ("://".toList <:+: s.toList ∨ "git@".toList <+: s.toList)

/-- `char::is_whitespace`, the property White_Space of Unicode. -/
def isWhiteSpace (c : Char) : Bool :=
  decide (9 ≤ c.toNat ∧ c.toNat ≤ 13 ∨ c.toNat = 0x20 ∨ c.toNat = 0x85 ∨ c.toNat = 0xA0 ∨
    c.toNat = 0x1680 ∨ 0x2000 ≤ c.toNat ∧ c.toNat ≤ 0x200A ∨ c.toNat = 0x2028 ∨
    c.toNat = 0x2029 ∨ c.toNat = 0x202F ∨ c.toNat = 0x205F ∨ c.toNat = 0x3000)

def trim (s : List Char) : List Char := (s.dropWhile isWhiteSpace).rdropWhile isWhiteSpace

def toAsciiLowercase (s : List Char) : List Char := s.map Char.toLower

/-- `trim_end_matches(".git")`, on the reversed text. -/
def trimGits : List Char → List Char
  | 't' :: 'i' :: 'g' :: '.' :: rest => trimGits rest
  | s => s

def canonicalizeUrlForHash (url : String) : List Char :=
  let s := (toAsciiLowercase (trim url.toList)).rdropWhile (· = '/')
  if ".git".toList <:+ s then s.take (s.length - 4) else s

def basename (url : String) : List Char :=
  (((url.toList.splitOn '/').reverse.find? fun segment => !segment.isEmpty).getD "repo".toList)

def cacheSubdirForUrl (hash : List Char → UInt64) (url : String) : String :=
  let hex := Nat.toDigits 16 (hash (canonicalizeUrlForHash url)).toNat
  String.ofList ((trimGits (basename url).reverse).reverse ++ '-' :: hex.leftpad 16 '0')

end ProjgitRegistry

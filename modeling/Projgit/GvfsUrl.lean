import Projgit.CliSource
import Projgit.ErrorClasses

/-!
The base URL of a GVFS remote and the endpoints made of it (`fetcher/gvfs.rs`): which
spellings are accepted, which of them are one remote, and that no two requests share a URL.
-/
namespace ProjgitGvfsHttp
open PlainText ProjgitStore ProjgitRegistry ProjgitErrors
open ProjgitCli (trim_around)

inductive GvfsFetcherError where
  | invalidBaseUrl (raw : String)
  deriving DecidableEq

def GvfsFetcherError.display : GvfsFetcherError → String
  | .invalidBaseUrl raw => "invalid GVFS base URL `" ++ raw ++ "`; expected http(s) URL"

inductive Auth where
  | none
  | bearer (token : String)
  deriving DecidableEq

structure GvfsClient where
  baseUrl : String
  auth : Auth
  deriving DecidableEq

def gvfsSuffix : List Char := ['/', 'g', 'v', 'f', 's']

def isHttp (s : List Char) : Bool :=
  "http://".toList.isPrefixOf s || "https://".toList.isPrefixOf s

def trimmedBase (raw : String) : List Char := (trim raw.toList).rdropWhile (· = '/')

def normalizeBaseUrl (raw : String) : Except GvfsFetcherError String :=
  let trimmed := trimmedBase raw
  if trimmed.isEmpty || !isHttp trimmed then .error (.invalidBaseUrl raw)
  else .ok (String.ofList (stripSuffix gvfsSuffix trimmed))

def GvfsClient.new (baseUrl : String) (auth : Auth) : Except GvfsFetcherError GvfsClient :=
  (normalizeBaseUrl baseUrl).map fun base => ⟨base, auth⟩

def GvfsClient.objectUrl (client : GvfsClient) (oid : ObjectId) : String :=
  client.baseUrl ++ "/gvfs/objects/" ++ oid.toHex

def GvfsClient.sizesUrl (client : GvfsClient) : String := client.baseUrl ++ "/gvfs/sizes"

def GvfsClient.authHeaders (client : GvfsClient) : List (String × String) :=
  match client.auth with
  | .none => []
  | .bearer token => [("Authorization", "Bearer " ++ token)]

/-! ### Object ids as text -/

theorem hexDigit_injective : ∀ a < 16, ∀ b < 16, hexDigit a = hexDigit b → a = b := by decide

theorem hexText_injective {bytes other : Utf8Bytes.Bytes}
    (same : (bytes.flatMap fun b => [hexDigit (b.toNat / 16), hexDigit (b.toNat % 16)]) =
      other.flatMap fun b => [hexDigit (b.toNat / 16), hexDigit (b.toNat % 16)]) :
    bytes = other := by
  induction bytes generalizing other with
  | nil =>
    cases other with
    | nil => rfl
    | cons c more => cases same
  | cons b rest ih =>
    cases other with
    | nil => cases same
    | cons c more =>
      simp only [List.flatMap_cons, List.cons_append, List.nil_append, List.cons.injEq] at same
      obtain ⟨high, low, tail⟩ := same
      have small : b.toNat < 256 := b.toNat_lt
      have small' : c.toNat < 256 := c.toNat_lt
      have upper := hexDigit_injective _ (by omega) _ (by omega) high
      have lower := hexDigit_injective _ (by omega) _ (by omega) low
      rw [ih tail, UInt8.toNat_inj.mp (show b.toNat = c.toNat by omega)]

theorem toHex_injective {oid other : ObjectId} (same : oid.toHex = other.toHex) : oid = other := by
  have bytes := hexText_injective (String.ofList_injective same)
  cases oid
  cases other
  cases bytes
  rfl

theorem toHex_length (oid : ObjectId) : oid.toHex.toList.length = 40 := by
  rw [ObjectId.toHex, String.toList_ofList, List.length_flatMap]
  simp [oid.width]

/-! ### Spellings -/

/-- The text with slashes behind it and whitespace around that. -/
def Spells (raw : String) (text : List Char) : Prop :=
  ∃ before slashes after, (∀ c ∈ before, isWhiteSpace c) ∧ (∀ c ∈ after, isWhiteSpace c) ∧
    raw.toList = before ++ (text ++ List.replicate slashes '/') ++ after ∧
    ∀ c, (text ++ List.replicate slashes '/').getLast? = some c → isWhiteSpace c = false

theorem isHttp_head {s : List Char} (http : isHttp s = true) : ∃ rest, s = 'h' :: rest := by
  simp only [isHttp, Bool.or_eq_true, List.isPrefixOf_iff_prefix] at http
  rcases http with ⟨rest, rfl⟩ | ⟨rest, rfl⟩
  · exact ⟨_, rfl⟩
  · exact ⟨_, rfl⟩

theorem split_trim (s : List Char) : ∃ before after, (∀ c ∈ before, isWhiteSpace c) ∧
    (∀ c ∈ after, isWhiteSpace c) ∧ s = before ++ trim s ++ after ∧
    ∀ c, (trim s).getLast? = some c → isWhiteSpace c = false := by
  refine ⟨s.takeWhile isWhiteSpace, (s.dropWhile isWhiteSpace).rtakeWhile isWhiteSpace,
    fun c member => List.mem_takeWhile_imp member, fun c member => List.mem_rtakeWhile_imp member,
    ?_, fun c last => ?_⟩
  · rw [trim, List.append_assoc, List.rdropWhile_append_rtakeWhile, List.takeWhile_append_dropWhile]
  · exact last_of_rdropWhile (List.rdropWhile_idempotent _ _) last

theorem split_slashes (s : List Char) :
    ∃ slashes, s = s.rdropWhile (· = '/') ++ List.replicate slashes '/' := by
  refine ⟨(s.rtakeWhile (· = '/')).length, ?_⟩
  have all : s.rtakeWhile (· = '/') = List.replicate (s.rtakeWhile (· = '/')).length '/' :=
    List.eq_replicate_iff.mpr ⟨rfl, fun c member => by simpa using List.mem_rtakeWhile_imp member⟩
  rw [← all, List.rdropWhile_append_rtakeWhile]

theorem trimmedBase_iff {raw : String} {text : List Char} (http : isHttp text = true) :
    trimmedBase raw = text ↔ text.getLast? ≠ some '/' ∧ Spells raw text := by
  constructor
  · rintro rfl
    obtain ⟨before, after, blankBefore, blankAfter, whole, black⟩ := split_trim raw.toList
    obtain ⟨slashes, rest⟩ := split_slashes (trim raw.toList)
    refine ⟨fun last => ?_, before, slashes, after, blankBefore, blankAfter, ?_, ?_⟩
    · have stays := last_of_rdropWhile (List.rdropWhile_idempotent _ _) last
      simp at stays
    · rw [trimmedBase, ← rest]
      exact whole
    · rw [trimmedBase, ← rest]
      exact black
  · rintro ⟨ends, before, slashes, after, blankBefore, blankAfter, whole, black⟩
    obtain ⟨rest, rfl⟩ := isHttp_head http
    have inner : trim raw.toList = 'h' :: rest ++ List.replicate slashes '/' := by
      rw [whole]
      exact trim_around blankBefore blankAfter ⟨'h', _, rfl, by decide⟩ black
    rw [trimmedBase, inner, rdropWhile_append_all (by simp)]
    refine rdropWhile_eq_self fun c last => ?_
    simp only [decide_eq_false_iff_not]
    rintro rfl
    exact ends last

/-- A spelling of the base itself, or of the base with one `/gvfs` behind it. -/
def SpellsRemote (raw base : String) : Prop :=
  ∃ text, isHttp text = true ∧ text.getLast? ≠ some '/' ∧ Spells raw text ∧
    (text = base.toList ++ gvfsSuffix ∨ text = base.toList ∧ ¬ gvfsSuffix <:+ text)

theorem stripSuffix_eq_iff {word s t : List Char} :
    stripSuffix word s = t ↔ s = t ++ word ∨ s = t ∧ ¬ word <:+ s := by
  constructor
  · rintro rfl
    rcases stripSuffix_cases word s with has | ⟨lacks, same⟩
    · exact Or.inl has
    · exact Or.inr ⟨same.symm, lacks⟩
  · rintro (rfl | ⟨rfl, lacks⟩)
    · exact stripSuffix_append word t
    · exact stripSuffix_of_not lacks

theorem normalize_iff (raw base : String) :
    normalizeBaseUrl raw = .ok base ↔ SpellsRemote raw base := by
  unfold normalizeBaseUrl
  constructor
  · intro accepted
    dsimp only at accepted
    split at accepted
    · cases accepted
    · rename_i fits
      have http : isHttp (trimmedBase raw) = true := by
        cases known : isHttp (trimmedBase raw) with
        | true => rfl
        | false => simp [known] at fits
      obtain ⟨ends, spells⟩ := (trimmedBase_iff http).mp rfl
      refine ⟨trimmedBase raw, http, ends, spells, stripSuffix_eq_iff.mp ?_⟩
      rw [← Except.ok.inj accepted, String.toList_ofList]
  · rintro ⟨text, http, ends, spells, shape⟩
    have trimmed := (trimmedBase_iff http).mpr ⟨ends, spells⟩
    obtain ⟨rest, some_⟩ := isHttp_head http
    have nonempty : text ≠ [] := by simp [some_]
    simp [trimmed, http, nonempty, stripSuffix_eq_iff.mpr shape]

/-! ### Endpoints -/

theorem objectUrl_inj {c d : GvfsClient} {oid other : ObjectId} :
    c.objectUrl oid = d.objectUrl other ↔ c.baseUrl = d.baseUrl ∧ oid = other := by
  constructor
  · intro same
    have chars := congrArg String.toList same
    simp only [GvfsClient.objectUrl, String.toList_append] at chars
    obtain ⟨front, hex⟩ := List.append_inj' chars (by rw [toHex_length, toHex_length])
    obtain ⟨base, -⟩ := List.append_inj' front rfl
    exact ⟨String.toList_inj.mp base, toHex_injective (String.toList_inj.mp hex)⟩
  · rintro ⟨base, rfl⟩
    rw [GvfsClient.objectUrl, base]
    rfl

/-- The last letter of `sizes` is no hex digit. -/
theorem objectUrl_ne_sizesUrl (c d : GvfsClient) (oid : ObjectId) :
    c.objectUrl oid ≠ d.sizesUrl := by
  intro same
  have chars := congrArg (fun url => url.toList.getLast?) same
  have some_ : oid.toHex.toList ≠ [] := by
    intro none_
    have length := toHex_length oid
    rw [none_] at length
    cases length
  obtain ⟨last, found⟩ : ∃ last, oid.toHex.toList.getLast? = some last :=
    ⟨_, List.getLast?_eq_some_getLast some_⟩
  have digit := hex_digits oid last (List.mem_of_getLast? found)
  simp only [GvfsClient.objectUrl, GvfsClient.sizesUrl, String.toList_append,
    List.getLast?_append, found, Option.some_or] at chars
  cases chars
  exact absurd digit (by decide)

theorem new_ok_iff {raw : String} {auth : Auth} {c : GvfsClient} :
    GvfsClient.new raw auth = .ok c ↔ SpellsRemote raw c.baseUrl ∧ c.auth = auth := by
  rw [← normalize_iff, GvfsClient.new]
  rcases c with ⟨base, who⟩
  cases normalizeBaseUrl raw with
  | error e => simp [Except.map]
  | ok url => simp [Except.map, eq_comm]

/-- Two accepted spellings reach the same endpoints exactly if they spell one remote. -/
theorem one_remote_iff {raw raw' : String} {auth auth' : Auth} {c d : GvfsClient}
    (opened : GvfsClient.new raw auth = .ok c) (opened' : GvfsClient.new raw' auth' = .ok d) :
    (∀ oid other, c.objectUrl oid = d.objectUrl other ↔
      oid = other ∧ ∃ base, SpellsRemote raw base ∧ SpellsRemote raw' base) ∧
    (c.sizesUrl = d.sizesUrl ↔ ∃ base, SpellsRemote raw base ∧ SpellsRemote raw' base) ∧
    ∀ oid, c.objectUrl oid ≠ d.sizesUrl := by
  obtain ⟨spells, -⟩ := new_ok_iff.mp opened
  obtain ⟨spells', -⟩ := new_ok_iff.mp opened'
  have shared : c.baseUrl = d.baseUrl ↔ ∃ base, SpellsRemote raw base ∧ SpellsRemote raw' base := by
    constructor
    · intro same
      exact ⟨c.baseUrl, spells, same ▸ spells'⟩
    · rintro ⟨base, first, second⟩
      have one := (normalize_iff raw base).mpr first
      have two := (normalize_iff raw' base).mpr second
      rw [(normalize_iff raw c.baseUrl).mpr spells] at one
      rw [(normalize_iff raw' d.baseUrl).mpr spells'] at two
      exact (Except.ok.inj one).trans (Except.ok.inj two).symm
  refine ⟨fun oid other => ?_, ?_, fun oid => objectUrl_ne_sizesUrl c d oid⟩
  · rw [objectUrl_inj, shared, and_comm]
  · rw [← shared, GvfsClient.sizesUrl, GvfsClient.sizesUrl]
    constructor
    · intro same
      have chars := congrArg String.toList same
      rw [String.toList_append, String.toList_append] at chars
      exact String.toList_inj.mp (List.append_cancel_right chars)
    · intro same
      rw [same]

theorem padded_spelling_is_one_remote :
    GvfsClient.new "https://host/repo" .none = .ok ⟨"https://host/repo", .none⟩ ∧
    GvfsClient.new " https://host/repo/gvfs//\n" (.bearer "t") =
      .ok ⟨"https://host/repo", .bearer "t"⟩ ∧
    ∃ base, SpellsRemote "https://host/repo" base ∧
      SpellsRemote " https://host/repo/gvfs//\n" base := by
  have plain : GvfsClient.new "https://host/repo" .none = .ok ⟨"https://host/repo", .none⟩ := by
    decide +kernel
  have padded : GvfsClient.new " https://host/repo/gvfs//\n" (.bearer "t") =
      .ok ⟨"https://host/repo", .bearer "t"⟩ := by
    decide +kernel
  exact ⟨plain, padded, (one_remote_iff plain padded).2.1.mp rfl⟩

end ProjgitGvfsHttp

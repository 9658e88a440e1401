import Projgit.Lib.SortedMap
import Projgit.Projection

/-!
The synthesised `.git/` (`dotgit.rs`, with the insertions of `overlay.rs`): the A1 overlay,
the index on top of it, and A2 ref visibility. `none` is a panic.
-/
namespace ProjgitProjection
open Utf8Bytes ProjgitStore SlashPath SortedMap

def dotgitName : Bytes := [46, 103, 105, 116]

def headName : Bytes := [72, 69, 65, 68]

def configName : Bytes := [99, 111, 110, 102, 105, 103]

def packedRefsName : Bytes := [112, 97, 99, 107, 101, 100, 45, 114, 101, 102, 115]

def refsName : Bytes := [114, 101, 102, 115]

def headsName : Bytes := [104, 101, 97, 100, 115]

def tagsName : Bytes := [116, 97, 103, 115]

def objectsName : Bytes := [111, 98, 106, 101, 99, 116, 115]

def infoName : Bytes := [105, 110, 102, 111]

def alternatesName : Bytes := [97, 108, 116, 101, 114, 110, 97, 116, 101, 115]

def indexName : Bytes := [105, 110, 100, 101, 120]

/-- `String::into_bytes`. -/
def textBytes (text : String) : Bytes := text.toByteArray.data.toList

def refsHeads : Bytes := refsName ++ slash :: headsName ++ [slash]

def a1Config : Bytes := textBytes
  "[core]\n\trepositoryformatversion = 0\n\tfilemode = true\n\tbare = false\n\tlogallrefupdates = false\n"

theorem sorted_put {children : List (Bytes × SyntheticEntry)} {name : Bytes}
    {child : SyntheticEntry} (sorted : (SyntheticEntry.directory children).Sorted)
    (inner : child.Sorted) : (SyntheticEntry.directory (put name child children)).Sorted := by
  cases sorted with
  | directory keys each =>
    refine .directory (put_sorted keys) fun entry member => ?_
    rcases mem_put member with rfl | before
    · exact inner
    · exact each entry before

theorem sorted_of_lookup {children : List (Bytes × SyntheticEntry)} {name : Bytes}
    {child : SyntheticEntry} (sorted : (SyntheticEntry.directory children).Sorted)
    (found : children.lookup name = some child) : child.Sorted := by
  cases sorted with
  | directory keys each =>
    obtain ⟨before, after, rfl, -⟩ := List.lookup_eq_some_iff.mp found
    exact each (name, child) (by simp)

theorem sorted_empty : (SyntheticEntry.directory []).Sorted :=
  .directory List.Pairwise.nil fun _ none_ => absurd none_ List.not_mem_nil

/-- An entry whose maps are in key order, as a `BTreeMap` is. -/
abbrev SortedEntry := { e : SyntheticEntry // e.Sorted }

namespace SortedEntry

def file (content : Bytes) : SortedEntry := ⟨.file content 0o100644, .file _ _⟩

def directory : SortedEntry := ⟨.directory [], sorted_empty⟩

def insertChild (entry : SortedEntry) (name : Bytes) (child : SortedEntry) : Option SortedEntry :=
  match entry with
  | ⟨.directory children, sorted⟩ =>
    some ⟨.directory (put name child.1 children), sorted_put sorted child.2⟩
  | ⟨.file _ _, _⟩ | ⟨.symlink _, _⟩ => none

end SortedEntry

namespace RootOverlay

def insert (name : Bytes) (entry : SortedEntry) (overlay : RootOverlay) : RootOverlay :=
  ⟨put name entry.1 overlay.entries, sorted_put overlay.sorted entry.2⟩

/-- `get_mut(name).expect(..)` with what is done to the entry behind it. -/
def getMut (name : Bytes) (update : SortedEntry → Option SortedEntry) (overlay : RootOverlay) :
    Option RootOverlay :=
  match found : overlay.get name with
  | none => none
  | some entry =>
    (update ⟨entry, sorted_of_lookup overlay.sorted found⟩).map fun e => overlay.insert name e

end RootOverlay

/-- `{commit_oid}\n` -/
def oidLine (oid : ObjectId) : Bytes := textBytes oid.toHex ++ [10]

/-- `ref: {branch_full_name}\n` -/
def symbolicHead (branchFullName : Bytes) : Bytes :=
  [114, 101, 102, 58, 32] ++ branchFullName ++ [10]

/-- The path is displayed, hence lossily. -/
def a1Overlay (commitOid : ObjectId) (objectsDir : Bytes) : Option RootOverlay := do
  let head := SortedEntry.file (oidLine commitOid)
  let config := SortedEntry.file a1Config
  let packedRefs := SortedEntry.file []
  let alternates := SortedEntry.file (fromUtf8Lossy objectsDir ++ [10])
  let refs ← SortedEntry.directory.insertChild headsName .directory
  let refs ← refs.insertChild tagsName .directory
  let info ← SortedEntry.directory.insertChild alternatesName alternates
  let objects ← SortedEntry.directory.insertChild infoName info
  let dotgit ← SortedEntry.directory.insertChild headName head
  let dotgit ← dotgit.insertChild configName config
  let dotgit ← dotgit.insertChild packedRefsName packedRefs
  let dotgit ← dotgit.insertChild refsName refs
  let dotgit ← dotgit.insertChild objectsName objects
  return RootOverlay.new.insert dotgitName dotgit

def spliceDotgitChild (name content : Bytes) (overlay : RootOverlay) : Option RootOverlay :=
  overlay.getMut dotgitName fun dotgit => dotgit.insertChild name (.file content)

/-- `a1_plus_overlay`, once the bytes of the index are built. -/
def a1PlusOverlay (commitOid : ObjectId) (objectsDir indexBytes : Bytes) : Option RootOverlay := do
  let overlay ← a1Overlay commitOid objectsDir
  spliceDotgitChild indexName indexBytes overlay

/-- The descent of `splice_nested_dotgit_file`: a missing directory is created on the way,
    and anything else that is not a directory is a panic. -/
def insertNested (content : Bytes) : List Bytes → SyntheticEntry → Option SyntheticEntry
  | [], _ => none
  | _ :: _, .file _ _ | _ :: _, .symlink _ => none
  | [leafName], .directory children =>
    some (.directory (put leafName (SortedEntry.file content).1 children))
  | component :: next :: rest, .directory children => do
    let entry := (children.lookup component).getD SortedEntry.directory.1
    let entry ← insertNested content (next :: rest) entry
    return .directory (put component entry children)

theorem insertNested_cons {content : Bytes} {path rest : List Bytes} {name : Bytes}
    {e e' : SyntheticEntry} (shape : path = name :: rest)
    (inserted : insertNested content path e = some e') :
    ∃ children child, e = .directory children ∧ e' = .directory (put name child children) ∧
      (rest = [] ∧ child = (SortedEntry.file content).1 ∨
        rest ≠ [] ∧ insertNested content rest
          ((children.lookup name).getD SortedEntry.directory.1) = some child) := by
  subst shape
  cases e with
  | file | symlink =>
    cases rest <;> cases inserted
  | directory children =>
    cases rest with
    | nil =>
      cases inserted
      exact ⟨children, _, rfl, rfl, Or.inl ⟨rfl, rfl⟩⟩
    | cons next more =>
      simp only [insertNested, Option.bind_eq_bind, Option.bind_eq_some_iff, Option.pure_def,
        Option.some.injEq] at inserted
      obtain ⟨child, below, rfl⟩ := inserted
      exact ⟨children, child, rfl, rfl, Or.inr ⟨by simp, below⟩⟩

theorem insertNested_sorted {content : Bytes} {path : List Bytes} {e e' : SyntheticEntry}
    (inserted : insertNested content path e = some e') (sorted : e.Sorted) : e'.Sorted := by
  induction path generalizing e e' with
  | nil => cases inserted
  | cons name rest ih =>
    obtain ⟨children, child, rfl, rfl, ⟨-, rfl⟩ | ⟨-, below⟩⟩ := insertNested_cons rfl inserted
    · exact sorted_put sorted (SortedEntry.file content).2
    · refine sorted_put sorted (ih below ?_)
      cases found : children.lookup name with
      | none => exact SortedEntry.directory.2
      | some child => exact sorted_of_lookup sorted found

def SortedEntry.insertNested (path : List Bytes) (content : Bytes) (e : SortedEntry) :
    Option SortedEntry :=
  match inserted : ProjgitProjection.insertNested content path e.1 with
  | none => none
  | some e' => some ⟨e', insertNested_sorted inserted e.2⟩

def spliceNestedDotgitFile (path : List Bytes) (content : Bytes) (overlay : RootOverlay) :
    Option RootOverlay :=
  if path = [] then none else overlay.getMut dotgitName (SortedEntry.insertNested path content)

def applyA2RefVisibility (branchFullName : Bytes) (commitOid : ObjectId)
    (overlay : RootOverlay) : Option RootOverlay :=
  if refsHeads <+: branchFullName then do
    let overlay ← spliceDotgitChild headName (symbolicHead branchFullName) overlay
    let refPath := split branchFullName
    if 3 ≤ refPath.length ∧ refPath[0]? = some refsName ∧ refPath[1]? = some headsName then
      spliceNestedDotgitFile refPath (oidLine commitOid) overlay
    else none
  else none

end ProjgitProjection

import Projgit.MergedMount

/-!
Names between `readdir` and `lookup`. A listing hands out the bytes of an entry's name;
a lookup, and the inode key of either, go through `from_utf8_lossy`. Here the two are
compared for arbitrary bytes.
-/
namespace ProjgitServing
open Utf8Bytes SlashPath ProjgitStore ProjgitProjection ProjgitFs ProjgitMerged Stateful LabelledRuns
variable {ω : Type}

/-- The keys of the entries that a directory lists, as the provider spells their paths. -/
def listedKeys (path : List Bytes) (listed : List (Bytes × ResolvedEntry)) :
    List (Bytes × ResolvedEntry) :=
  listed.map fun named => (join (path ++ [fromUtf8Lossy named.1]), named.2)

/-- The lookup of a name answers what the listing says, and for no other entry of it. -/
structure Agrees (out : List DirEntry) (name : Bytes) (r : Except FsError Attr) : Prop where
  found : (∃ a, r = .ok a) ↔ ∃ d ∈ out, d.name = name
  same : ∀ a, r = .ok a → ∃ d ∈ out, d.name = name ∧ d.inode = a.inode ∧ d.kind = a.kind
  alone : ∀ a, r = .ok a → ∀ d ∈ out, d.inode = a.inode → d.name = name

def ListsAndFinds (M : Mount ω) (s : FsState ω) (i : UInt64) (name : Bytes) : Prop :=
  ∃ out, Gives (M.readdir i 0).run s (fun r _ => r = .ok out) ∧
    Gives (M.lookup i name).run s fun r _ => Agrees out name r

def SameKey : ResolvedEntry → ResolvedEntry → Prop
  | .tree e, .tree f => e.oid = f.oid
  | .synthetic _ _, .synthetic _ _ => True
  | _, _ => False

/-- Neither the name nor its decoding is in the directory; or the name is text, and no
    entry of the same object under another name decodes to it. -/
def Plain (listed : List (Bytes × ResolvedEntry)) (name : Bytes) : Prop :=
  (name ∉ listed.map Prod.fst ∧ fromUtf8Lossy name ∉ listed.map Prod.fst) ∨
    (fromUtf8Lossy name = name ∧ ∀ found, listed.lookup name = some found →
      ∀ other ∈ listed, fromUtf8Lossy other.1 = name → SameKey other.2 found → other.1 = name)

theorem inode_eq_iff {hasher : Bytes → UInt64} {id : UInt64} {keys : List (Bytes × ResolvedEntry)}
    (distinct : DistinctKeys hasher id keys) {front : List Bytes} {a b : Bytes × ResolvedEntry}
    (first : (join (front ++ [fromUtf8Lossy a.1]), a.2) ∈ keys)
    (second : (join (front ++ [fromUtf8Lossy b.1]), b.2) ∈ keys) :
    inodeAt hasher id (front ++ [fromUtf8Lossy a.1]) (.entry a.2) =
        inodeAt hasher id (front ++ [fromUtf8Lossy b.1]) (.entry b.2) ↔
      SameKey a.2 b.2 ∧ fromUtf8Lossy a.1 = fromUtf8Lossy b.1 := by
  obtain ⟨nameA, e | ⟨labelA, e⟩⟩ := a <;> obtain ⟨nameB, f | ⟨labelB, f⟩⟩ := b
  · constructor
    · intro same
      obtain ⟨oid, paths⟩ := distinct.tree _ _ e f first second same
      exact ⟨oid, join_snoc_injective paths⟩
    · rintro ⟨oid, names⟩
      change hashTree _ _ e.oid _ = hashTree _ _ f.oid _
      rw [show e.oid = f.oid from oid, names]
  · refine iff_of_false (fun same => ?_) (fun both => both.1)
    exact syntheticInode_ne_hashTree _ _ _ _ _ same.symm
  · refine iff_of_false (fun same => ?_) (fun both => both.1)
    exact syntheticInode_ne_hashTree _ _ _ _ _ same
  · constructor
    · intro same
      have paths := distinct.synthetic _ _ _ _ e f first second (syntheticInode_injective same)
      exact ⟨trivial, join_snoc_injective paths⟩
    · rintro ⟨-, names⟩
      change syntheticInode _ _ _ = syntheticInode _ _ _
      rw [names]

section Comparison
variable {M : Mount ω} {T : Merged} {id : UInt64} {path : List Bytes} {node : Node}
  {listed : List (Bytes × ResolvedEntry)} {name : Bytes}

theorem listed_name_iff : (∃ d ∈ listed.map (listedAt M T id path), d.name = name) ↔
    name ∈ listed.map Prod.fst := by
  simp [listedAt]

theorem agrees_absent (absent : listed.lookup (fromUtf8Lossy name) = none) (e : FsError) :
    Agrees (listed.map (listedAt M T id path)) name (.error e) ↔ Plain listed name := by
  have gone := lookup_absent absent
  have missing : Agrees (listed.map (listedAt M T id path)) name (.error e) ↔
      name ∉ listed.map Prod.fst := by
    constructor
    · intro agrees among
      obtain ⟨a, impossible⟩ := agrees.found.mpr (listed_name_iff.mpr among)
      cases impossible
    · intro out
      refine ⟨iff_of_false (by simp) (fun has => out (listed_name_iff.mp has)), ?_, ?_⟩
      · intro a impossible
        cases impossible
      · intro a impossible
        cases impossible
  rw [missing]
  constructor
  · exact fun out => Or.inl ⟨out, gone⟩
  · rintro (⟨out, -⟩ | ⟨text, -⟩)
    · exact out
    · exact text ▸ gone

theorem agrees_found (distinct : DistinctKeys M.hasher id (listedKeys path listed))
    {found : ResolvedEntry}
    (hit : listed.lookup (fromUtf8Lossy name) = some found) :
    Agrees (listed.map (listedAt M T id path)) name
        (.ok (attrAt M T id (path ++ [fromUtf8Lossy name]) (.entry found))) ↔
      Plain listed name := by
  obtain ⟨inode, stat, -⟩ := attrAt_spec M T id (path ++ [fromUtf8Lossy name]) (.entry found)
  have kind := congrArg Prod.fst stat
  have member := member_of_lookup hit
  have idem : fromUtf8Lossy (fromUtf8Lossy name) = fromUtf8Lossy name :=
    lossy_of_valid (valid_lossy name)
  have listedInode : ∀ other ∈ listed,
      (listedAt M T id path other).inode =
          (attrAt M T id (path ++ [fromUtf8Lossy name]) (.entry found)).inode ↔
        SameKey other.2 found ∧ fromUtf8Lossy other.1 = fromUtf8Lossy name := by
    intro other among
    have compare := inode_eq_iff distinct (List.mem_map.mpr ⟨_, among, rfl⟩)
      (List.mem_map.mpr ⟨_, member, rfl⟩)
    rw [idem] at compare
    rw [inode]
    exact compare
  have own := (listedInode _ member).mpr ⟨by cases found <;> trivial, idem⟩
  constructor
  · intro agrees
    have text : fromUtf8Lossy name = name :=
      agrees.alone _ rfl _ (List.mem_map.mpr ⟨_, member, rfl⟩) own
    refine Or.inr ⟨text, fun other hitName named among decoded key => ?_⟩
    rw [text] at hit
    cases hit.symm.trans hitName
    refine agrees.alone _ rfl _ (List.mem_map.mpr ⟨named, among, rfl⟩) ?_
    exact (listedInode named among).mpr ⟨key, decoded.trans text.symm⟩
  · rintro (⟨-, gone⟩ | ⟨text, others⟩)
    · exact absurd (List.mem_map.mpr ⟨_, member, rfl⟩) gone
    · have named : name ∈ listed.map Prod.fst := List.mem_map.mpr ⟨_, member, text⟩
      refine ⟨iff_of_true ⟨_, rfl⟩ (listed_name_iff.mpr named), ?_, ?_⟩
      · intro a same
        cases same
        exact ⟨_, List.mem_map.mpr ⟨_, member, rfl⟩, text, own, kind.symm⟩
      · intro a same d among equal
        cases same
        obtain ⟨other, inside, rfl⟩ := List.mem_map.mp among
        obtain ⟨key, decoded⟩ := (listedInode other inside).mp equal
        exact others found (text ▸ hit) other inside (decoded.trans text) key

end Comparison

theorem lists_and_finds_iff {spec : MountSpec ω} {u : Universe ω} {w : ω} {root : ObjectId}
    {trees blobBytes perEntry headers : Nat} {M : Mount ω} {start s : FsState ω}
    {actions : List (FsAction ω)} {i : UInt64} {path : List Bytes} {node : Node}
    {listed : List (Bytes × ResolvedEntry)} {name : Bytes}
    (built : (spec.new.run.run (.withCapacities trees blobBytes perEntry headers w)).1 =
      .ok (M, start))
    (setting : Setting M u w root) (run : exec (fsStep M) start actions = some s)
    (distinct : DistinctKeys M.hasher spec.projectionId
      (seen (fsStep M) (keyOf M) start actions ++ listedKeys path listed))
    (calm : Meets (fsStep M) Undisturbed start actions)
    (held : Held M setting.tree spec.projectionId s i path node)
    (children : setting.tree.children node = some listed) (proper : ProperName name) :
    ListsAndFinds M s i name ↔ Plain listed name := by
  have opened : At M.gix u nothing w (.withCapacities trees blobBytes perEntry headers w) :=
    ⟨truthful_new _ _ _ _ _ _ _ _, rfl⟩
  have faithful := Setting.run_faithful distinct (fun _ => List.mem_append_left _) run calm
    (start_faithful setting opened built _)
  have listing : Gives (M.readdir i 0).run s fun r _ =>
      r = .ok (listed.map (listedAt M setting.tree spec.projectionId path)) := by
    apply (Setting.readdir_held faithful held).mono
    intro r t given
    obtain ⟨-, -, answer⟩ := given
    simpa [children] using answer
  have answered := Setting.lookup_told faithful held proper
  have only : ListsAndFinds M s i name ↔ Gives (M.lookup i name).run s fun r _ =>
      Agrees (listed.map (listedAt M setting.tree spec.projectionId path)) name r := by
    constructor
    · rintro ⟨out, lists, finds⟩
      cases lists.symm.trans listing
      exact finds
    · exact fun finds => ⟨_, listing, finds⟩
  have value : ∀ answer, Gives (M.lookup i name).run s (fun r _ => r = answer) →
      (ListsAndFinds M s i name ↔
        Agrees (listed.map (listedAt M setting.tree spec.projectionId path)) name answer) := by
    rintro answer rfl
    exact only
  cases hit : listed.lookup (fromUtf8Lossy name) with
  | none =>
    have child : setting.tree.child node (fromUtf8Lossy name) = .error .notFound := by
      simp [Merged.child, children, hit]
    rw [child] at answered
    rw [value _ answered]
    exact agrees_absent hit .notFound
  | some found =>
    have child : setting.tree.child node (fromUtf8Lossy name) = .ok found := by
      simp [Merged.child, children, hit]
    rw [child] at answered
    rw [value _ answered]
    exact agrees_found (distinct.mono fun _ => List.mem_append_right _) hit

section Sample
open ProjgitTables

def byteTables : Tables where
  commits := [(fixtureId 1, fixtureId 2, 5)]
  trees := [(fixtureId 2, [⟨[0xFF], 0o100644, fixtureId 4⟩])]
  blobs := [(fixtureId 4, ascii "hi\n")]

def byteSpec : MountSpec World := byteTables.mountSpec (.commit (fixtureId 1)) NoopFetcher

def byteMount : Mount World := byteSpec.mount 5

def byteStart : FsState World := byteSpec.start (.withCapacities 4 64 64 4 ⟨[], []⟩)

theorem byte_setting : Setting byteMount byteTables.objects ⟨[], []⟩ (fixtureId 2) :=
  Tables.setting_commit (c := (fixtureId 2, 5)) (by decide +kernel) (by decide +kernel)
    (by decide +kernel) (by decide +kernel) rfl NoopFetcher 5 []

theorem byte_built : (byteSpec.new.run.run (.withCapacities 4 64 64 4 ⟨[], []⟩)).1 =
    .ok (byteMount, byteStart) :=
  Tables.new_built (c := (fixtureId 2, 5)) (by decide +kernel) (by decide +kernel) NoopFetcher
    rfl rfl

theorem byte_distinct : DistinctKeys sipHash 7 (seen (fsStep byteMount) (keyOf byteMount) byteStart []
    ++ listedKeys [] ((byte_setting.tree.children .root).getD [])) :=
  distinctKeys_of_apart (by decide +kernel)

theorem byte_held : Held byteMount byte_setting.tree 7 byteStart rootInode [] .root :=
  ⟨reached_root _, rfl, AList.lookup_insert _⟩

theorem byte_name_listed_not_found :
    Setting byteMount byteTables.objects ⟨[], []⟩ (fixtureId 2) ∧
    DistinctKeys sipHash 7 (seen (fsStep byteMount) (keyOf byteMount) byteStart [] ++
      listedKeys [] ((byte_setting.tree.children .root).getD [])) ∧
    (byteSpec.new.run.run (.withCapacities 4 64 64 4 ⟨[], []⟩)).1 = .ok (byteMount, byteStart) ∧
    ProperName [0xFF] ∧ ¬ ListsAndFinds byteMount byteStart rootInode [0xFF] := by
  refine ⟨byte_setting, byte_distinct, byte_built, ⟨⟨by simp, by decide⟩, by decide, by decide,
    by decide⟩, ?_⟩
  rintro ⟨out, lists, finds⟩
  have failed : ((byteMount.lookup rootInode [0xFF]).run.run byteStart).1.toBool = false := by
    decide +kernel
  have there : (match ((byteMount.readdir rootInode 0).run.run byteStart).1 with
      | .ok out => out.any (·.name = [0xFF])
      | .error _ => false) = true := by decide +kernel
  have listing : ((byteMount.readdir rootInode 0).run.run byteStart).1 = .ok out := lists
  rw [listing] at there
  obtain ⟨d, among, named⟩ := List.any_eq_true.mp there
  obtain ⟨a, answered⟩ := finds.found.mpr ⟨d, among, of_decide_eq_true named⟩
  rw [answered] at failed
  cases failed

theorem dotGit_listed_and_found :
    Plain ((byte_setting.tree.children .root).getD []) (ascii ".git") ∧
      ListsAndFinds byteMount byteStart rootInode (ascii ".git") := by
  have text : TextName (ascii ".git") := by decide +kernel
  have plain : Plain ((byte_setting.tree.children .root).getD []) (ascii ".git") := by
    refine Or.inr ⟨lossy_of_valid text.2, fun found hit other among decoded key => ?_⟩
    have others : ∀ other ∈ (byte_setting.tree.children .root).getD [],
        fromUtf8Lossy other.1 = ascii ".git" → other.1 = ascii ".git" := by decide +kernel
    exact others other among decoded
  have run : exec (fsStep byteMount) byteStart [] = some byteStart := rfl
  have agrees : ListsAndFinds byteMount byteStart rootInode (ascii ".git") ↔
      Plain ((byte_setting.tree.children .root).getD []) (ascii ".git") :=
    lists_and_finds_iff byte_built byte_setting run byte_distinct trivial byte_held rfl text.1
  exact ⟨plain, agrees.mpr plain⟩

end Sample
end ProjgitServing

import Projgit.Tables

/-!
The mount refines the merged tree. From every state a run can reach, looking names up
one after the other is descent through the merged tree, and the inode at the end of it
reads, links and lists as its node does.
-/
namespace ProjgitServing
open Utf8Bytes SlashPath ProjgitStore ProjgitProjection ProjgitFs ProjgitMerged Stateful LabelledRuns
variable {ω : Type}

/-- One lookup after the other; an error comes with the components not yet resolved. -/
def chain (M : Mount ω) (a : Attr) :
    List Bytes → ExceptT (FsError × List Bytes) (StateM (FsState ω)) Attr
  | [] => return a
  | name :: rest => do
    let next ← ExceptT.adapt (fun e => (e, name :: rest)) (M.lookup a.inode name)
    chain M next rest

def chainFromRoot (M : Mount ω) (path : List Bytes) :
    ExceptT (FsError × List Bytes) (StateM (FsState ω)) Attr := do
  let a ← ExceptT.adapt (fun e => (e, path)) (M.getattr rootInode)
  chain M a path

/-- A name that survives the passage through a Rust string. -/
def TextName (name : Bytes) : Prop := ProperName name ∧ Valid name

instance : DecidablePred TextName := fun name =>
  decidable_of_iff ((name ≠ [] ∧ slash ∉ name) ∧ (0 ∉ name ∧ name ≠ dot ∧ name ≠ dotdot) ∧
      fromUtf8Lossy name = name) <| by
    constructor
    · rintro ⟨⟨nonempty, noSlash⟩, ⟨noNul, notDot, notDotdot⟩, same⟩
      exact ⟨⟨⟨nonempty, noSlash⟩, noNul, notDot, notDotdot⟩, same ▸ valid_lossy name⟩
    · rintro ⟨⟨⟨nonempty, noSlash⟩, noNul, notDot, notDotdot⟩, valid⟩
      exact ⟨⟨nonempty, noSlash⟩, ⟨noNul, notDot, notDotdot⟩, lossy_of_valid valid⟩

inductive Named : SyntheticEntry → Prop where
  | file (content : Bytes) (modeRaw : UInt16) : Named (.file content modeRaw)
  | symlink (target : Bytes) : Named (.symlink target)
  | directory {children : List (Bytes × SyntheticEntry)}
      (names : ∀ child ∈ children, TextName child.1)
      (each : ∀ child ∈ children, Named child.2) : Named (.directory children)

def WellNamed (G : Gix ω) (u : Universe ω) : Prop :=
  ∀ oid es, treeOf G oid (u.object oid) = .ok es →
    (es.map RawTreeEntry.name).Nodup ∧ ∀ e ∈ es, TextName e.name

/-- The keys of the nodes that the names lead through, as far as they lead. -/
def keysAlong (T : Merged) (path : List Bytes) (node : Node) :
    List Bytes → List (Bytes × ResolvedEntry)
  | [] => []
  | name :: rest =>
    match T.child node name with
    | .error _ => []
    | .ok found => (join (path ++ [name]), found) :: keysAlong T (path ++ [name]) (.entry found) rest

structure Shows (M : Mount ω) (T : Merged) (s : FsState ω) (a : Attr) (node : Node) : Prop where
  stat : (a.kind, a.size, a.mode) = T.stat node
  read : ∀ offset size, Gives (M.read a.inode offset size).run s fun r _ =>
    r = match T.content node with
      | none => .error .notAFile
      | some bytes => .ok ((bytes.drop offset).take size)
  readlink : Gives (M.readlink a.inode).run s fun r _ =>
    r = match T.target node with
      | none => .error .notASymlink
      | some bytes => .ok bytes
  readdir : Gives (M.readdir a.inode 0).run s fun r t =>
    match T.children node with
    | none => r = .error .notADirectory
    | some listed => ∃ out, r = .ok out ∧ out.map DirEntry.name = listed.map Prod.fst ∧
        (out.map DirEntry.name).Nodup ∧
        ∀ d ∈ out, Gives (M.lookup a.inode d.name).run t fun r _ =>
          ∃ b, r = .ok b ∧ b.inode = d.inode ∧ b.kind = d.kind

theorem sliceBlob_eq (bytes : Bytes) (offset size : Nat) :
    sliceBlob bytes offset size = (bytes.drop offset).take size := by
  unfold sliceBlob
  by_cases inside : offset ≤ bytes.length
  · rw [Nat.min_eq_left inside, List.drop_take]
    by_cases fits : offset + size ≤ bytes.length
    · rw [Nat.min_eq_left fits, Nat.add_sub_cancel_left]
    · have past : bytes.length ≤ offset + size := by omega
      rw [Nat.min_eq_right past, List.take_of_length_le (by simp),
        List.take_of_length_le (by simp; omega)]
  · have past : bytes.length ≤ offset := by omega
    simp [Nat.min_eq_right past, List.drop_eq_nil_of_le past]

theorem keys_nodup {children : List (Bytes × SyntheticEntry)}
    (keys : (children.map Prod.fst).Pairwise (· < ·)) : (children.map Prod.fst).Nodup := by
  apply keys.imp
  rintro a _ less rfl
  exact List.lt_irrefl a less

theorem lookup_of_member {α : Type} {listed : List (Bytes × α)}
    (distinct : (listed.map Prod.fst).Nodup) {name : Bytes} {found : α}
    (member : (name, found) ∈ listed) : listed.lookup name = some found := by
  induction listed with
  | nil => cases member
  | cons named rest ih =>
    obtain ⟨key, value⟩ := named
    rw [List.map_cons, List.nodup_cons] at distinct
    rcases List.mem_cons.mp member with same | later
    · cases same
      simp
    · have other : name ≠ key := by
        rintro rfl
        exact distinct.1 (List.mem_map.mpr ⟨_, later, rfl⟩)
      simp only [List.lookup_cons, beq_eq_false_iff_ne.mpr other]
      exact ih distinct.2 later

theorem member_of_lookup {α : Type} {listed : List (Bytes × α)} {name : Bytes} {found : α}
    (hit : listed.lookup name = some found) : (name, found) ∈ listed := by
  obtain ⟨before, after, rfl, -⟩ := List.lookup_eq_some_iff.mp hit
  simp

theorem lookup_absent {α : Type} {listed : List (Bytes × α)} {name : Bytes}
    (absent : listed.lookup name = none) : name ∉ listed.map Prod.fst := by
  induction listed with
  | nil => simp
  | cons named rest ih =>
    obtain ⟨key, value⟩ := named
    by_cases same : name = key
    · simp [same] at absent
    · simp only [List.lookup_cons, beq_eq_false_iff_ne.mpr same] at absent
      simpa [same] using ih absent

def NodeNamed : Node → Prop
  | .entry (.synthetic _ e) => e.Sorted ∧ Named e
  | _ => True

namespace Setting
variable {M : Mount ω} {u : Universe ω} {w : ω} {root : ObjectId} {id : UInt64}
  {keys : List (Bytes × ResolvedEntry)} {s t : FsState ω} {setting : Setting M u w root}
  {i : UInt64} {path : List Bytes} {node : Node}

theorem reached_synthetic (named : Named (.directory M.overlay.entries)) {label : Bytes}
    {e : SyntheticEntry}
    (reached : setting.tree.descend .root path = .ok (.entry (.synthetic label e))) :
    e.Sorted ∧ Named e := by
  have inner : ∀ children name e, (SyntheticEntry.directory children).Sorted →
      Named (.directory children) → children.lookup name = some e → e.Sorted ∧ Named e := by
    intro children name e sorted named hit
    have member : (name, e) ∈ children := member_of_lookup hit
    cases sorted with
    | directory keys each =>
      cases named with
      | directory names below => exact ⟨each _ member, below _ member⟩
  have step : ∀ node name found, NodeNamed node → setting.tree.child node name = .ok found →
      NodeNamed (.entry found) := by
    intro node name found before child
    rcases node with _ | ⟨f | ⟨label, f⟩⟩
    · rcases child_of_root child with ⟨e, hit, rfl⟩ | ⟨-, raw, -, rfl⟩
      · exact inner _ name e M.overlay.sorted named hit
      · trivial
    · obtain ⟨-, raw, -, rfl⟩ := child_of_tree child
      trivial
    · obtain ⟨children, rfl, e, hit, rfl⟩ := child_of_synthetic child
      exact inner children name e before.1 before.2 hit
  have start : NodeNamed .root := trivial
  exact descend_inherits step start reached

theorem treePairs_names (raw : List RawTreeEntry) :
    (treePairs raw).map Prod.fst = raw.map RawTreeEntry.name := by
  simp [treePairs, List.map_map, Function.comp_def]

theorem syntheticPairs_names (children : List (Bytes × SyntheticEntry)) :
    (syntheticPairs children).map Prod.fst = children.map Prod.fst := by
  simp [syntheticPairs, List.map_map, Function.comp_def]

theorem children_named (wellNamed : WellNamed M.gix u)
    (named : Named (.directory M.overlay.entries))
    (reached : setting.tree.descend .root path = .ok node) {listed : List (Bytes × ResolvedEntry)}
    (children : setting.tree.children node = some listed) :
    (listed.map Prod.fst).Nodup ∧ ∀ name ∈ listed.map Prod.fst, TextName name := by
  have fromNamed : ∀ inner, Named (.directory inner) →
      ∀ name ∈ (syntheticPairs inner).map Prod.fst, TextName name := by
    intro inner below name among
    rw [syntheticPairs_names] at among
    obtain ⟨child, member, rfl⟩ := List.mem_map.mp among
    cases below with
    | directory names each => exact names child member
  obtain ⟨es, tree⟩ := setting.rootTree
  rcases node with _ | ⟨d | ⟨label, content | inner | target⟩⟩
  · cases children
    have trees : setting.tree.trees root = es := mergedOf_trees tree
    obtain ⟨distinct, text⟩ := wellNamed root es tree
    have visible : ∀ name ∈ (treePairs ((setting.tree.trees root).filter fun e =>
        !M.overlay.wouldCollide e.name)).map Prod.fst,
        M.overlay.get name = none ∧ TextName name := by
      intro name among
      rw [treePairs_names, trees] at among
      obtain ⟨e, member, rfl⟩ := List.mem_map.mp among
      obtain ⟨inside, clear⟩ := List.mem_filter.mp member
      exact ⟨by simpa [RootOverlay.wouldCollide] using clear, text e inside⟩
    rw [List.map_append]
    constructor
    · refine List.Nodup.append ?_ ?_ ?_
      · rw [syntheticPairs_names]
        cases M.overlay.sorted with
        | directory keys each => exact keys_nodup keys
      · change ((treePairs ((setting.tree.trees root).filter _)).map Prod.fst).Nodup
        rw [treePairs_names, trees]
        exact (List.Sublist.map _ List.filter_sublist).nodup distinct
      · intro name overlaid real
        rw [syntheticPairs_names] at overlaid
        exact lookup_absent (visible name real).1 overlaid
    · intro name among
      rcases List.mem_append.mp among with overlaid | real
      · exact fromNamed _ named name overlaid
      · exact (visible name real).2
  · have backed := reached_backed setting.backed tree reached
    cases mode : d.mode <;> simp only [Merged.children, mode] at children backed
    · cases children
    · cases children
    · cases children
    · obtain ⟨inner, ok⟩ := backed
      cases children
      rw [treePairs_names, mergedOf_trees ok]
      obtain ⟨distinct, text⟩ := wellNamed d.oid inner ok
      refine ⟨distinct, fun name among => ?_⟩
      obtain ⟨e, member, rfl⟩ := List.mem_map.mp among
      exact text e member
    · cases children
      exact ⟨List.nodup_nil, by simp⟩
  · cases children
  · obtain ⟨sorted, below⟩ := reached_synthetic named reached
    cases children
    refine ⟨?_, fromNamed inner below⟩
    rw [syntheticPairs_names]
    cases sorted with
    | directory keys each => exact keys_nodup keys
  · cases children

theorem lookup_text (faithful : setting.Faithful id keys s)
    (distinct : DistinctKeys M.hasher id keys) (held : Held M setting.tree id s i path node)
    {name : Bytes} (text : TextName name)
    (used : ∀ found, setting.tree.child node name = .ok found →
      (join (path ++ [name]), found) ∈ keys) :
    Gives (M.lookup i name).run s fun r t => setting.Faithful id keys t ∧
      match setting.tree.child node name with
      | .error e => r = .error e
      | .ok found =>
        r = .ok (attrAt M setting.tree id (path ++ [name]) (.entry found)) ∧
        Held M setting.tree id t (inodeAt M.hasher id (path ++ [name]) (.entry found))
          (path ++ [name]) (.entry found) := by
  have plain : fromUtf8Lossy name = name := lossy_of_valid text.2
  have looked := lookup_held faithful distinct held text.1 (by rw [plain]; exact used)
  rw [plain] at looked
  apply looked.mono
  intro r t given
  exact ⟨given.1, given.2.2⟩

theorem chain_gives (distinct : DistinctKeys M.hasher id keys) {names : List Bytes}
    (text : ∀ c ∈ names, TextName c)
    (among : ∀ key ∈ keysAlong setting.tree path node names, key ∈ keys)
    (faithful : setting.Faithful id keys s)
    (held : Held M setting.tree id s (inodeAt M.hasher id path node) path node) :
    Gives (chain M (attrAt M setting.tree id path node) names).run s fun r t =>
      setting.Faithful id keys t ∧
      match setting.tree.descend node names with
      | .error e => r = .error e
      | .ok last => r = .ok (attrAt M setting.tree id (path ++ names) last) ∧
        Held M setting.tree id t (inodeAt M.hasher id (path ++ names) last) (path ++ names) last := by
  induction names generalizing s path node with
  | nil =>
    rw [List.append_nil]
    exact ⟨faithful, rfl, held⟩
  | cons name rest ih =>
    have inode := (attrAt_spec M setting.tree id path node).1
    unfold chain
    rw [gives_run_bind, gives_run_adapt, inode]
    have used : ∀ found, setting.tree.child node name = .ok found →
        (join (path ++ [name]), found) ∈ keys := fun found child =>
      among _ (by rw [keysAlong, child]; exact List.mem_cons_self)
    apply (lookup_text faithful distinct held (text name (by simp)) used).mono
    intro r t given
    obtain ⟨faithfulT, answer⟩ := given
    cases child : setting.tree.child node name with
    | error e =>
      rw [child] at answer
      subst answer
      refine ⟨faithfulT, ?_⟩
      simp [Merged.descend, child]
    | ok found =>
      rw [child] at answer
      obtain ⟨rfl, heldT⟩ := answer
      have below := ih (fun c among => text c (List.mem_cons_of_mem _ among))
        (fun key later => among key (by rw [keysAlong, child]; exact List.mem_cons_of_mem _ later))
        faithfulT heldT
      rw [List.append_assoc, List.singleton_append] at below
      simpa [Merged.descend, child, Except.mapError] using below

theorem held_shows (wellNamed : WellNamed M.gix u) (named : Named (.directory M.overlay.entries))
    (faithful : setting.Faithful id keys s)
    (held : Held M setting.tree id s (inodeAt M.hasher id path node) path node) :
    Shows M setting.tree s (attrAt M setting.tree id path node) node := by
  obtain ⟨inode, stat, -⟩ := attrAt_spec M setting.tree id path node
  refine ⟨stat, ?_, ?_, ?_⟩
  · intro offset size
    rw [inode]
    apply (read_held faithful held offset size).mono
    intro r t given
    obtain ⟨-, answer⟩ := given
    cases content : setting.tree.content node with
    | none => simpa [content] using answer
    | some bytes => simpa [content, sliceBlob_eq] using answer
  · rw [inode]
    apply (readlink_held faithful held).mono
    intro r t given
    obtain ⟨-, answer⟩ := given
    cases target : setting.tree.target node with
    | none => simpa [target] using answer
    | some bytes => simpa [target] using answer
  · rw [inode]
    apply (readdir_held faithful held).mono
    intro r t given
    obtain ⟨faithfulT, attrs, answer⟩ := given
    cases children : setting.tree.children node with
    | none => simpa [children] using answer
    | some listed =>
      rw [children] at answer
      obtain ⟨distinctNames, text⟩ :=
        children_named wellNamed named held.reached.descends children
      have names : (listed.map (listedAt M setting.tree id path)).map DirEntry.name =
          listed.map Prod.fst := by simp [listedAt, Function.comp_def]
      refine ⟨_, answer, names, names ▸ distinctNames, ?_⟩
      intro d among
      obtain ⟨⟨name, found⟩, member, rfl⟩ := List.mem_map.mp among
      have textName : TextName name := text name (List.mem_map.mpr ⟨_, member, rfl⟩)
      have child : setting.tree.child node name = .ok found := by
        simp [Merged.child, children, lookup_of_member distinctNames member]
      have heldT := held.of_attrs attrs
      have plain : fromUtf8Lossy name = name := lossy_of_valid textName.2
      apply (lookup_told faithfulT heldT textName.1).mono
      intro r t' told
      rw [plain, child] at told
      obtain ⟨inodeB, statB, -⟩ := attrAt_spec M setting.tree id (path ++ [name]) (.entry found)
      refine ⟨_, told, ?_, ?_⟩
      · rw [inodeB, listedAt, plain]
      · exact congrArg Prod.fst statB

end Setting

theorem mount_refines_merged_tree {spec : MountSpec ω} {u : Universe ω} {w : ω} {root : ObjectId}
    {trees blobBytes perEntry headers : Nat} {M : Mount ω} {start s : FsState ω}
    {actions : List (FsAction ω)} {names : List Bytes}
    (built : (spec.new.run.run (.withCapacities trees blobBytes perEntry headers w)).1 =
      .ok (M, start))
    (setting : Setting M u w root) (wellNamed : WellNamed M.gix u)
    (named : Named (.directory M.overlay.entries))
    (run : exec (fsStep M) start actions = some s)
    (distinct : DistinctKeys M.hasher spec.projectionId
      (seen (fsStep M) (keyOf M) start actions ++ keysAlong setting.tree [] .root names))
    (calm : Meets (fsStep M) Undisturbed start actions)
    (text : ∀ c ∈ names, TextName c) :
    Gives (chainFromRoot M names).run s fun r t =>
      match setting.tree.descend .root names with
      | .error e => r = .error e
      | .ok node => ∃ a, r = .ok a ∧ Shows M setting.tree t a node := by
  have opened : At M.gix u nothing w (.withCapacities trees blobBytes perEntry headers w) :=
    ⟨truthful_new _ _ _ _ _ _ _ _, rfl⟩
  have faithful := Setting.run_faithful distinct (fun _ => List.mem_append_left _) run calm
    (start_faithful setting opened built _)
  have held : Held M setting.tree spec.projectionId s
      (inodeAt M.hasher spec.projectionId [] .root) [] .root := held_root faithful.serves
  unfold chainFromRoot
  rw [gives_run_bind, gives_run_adapt]
  apply (getattr_gives held).mono
  intro r t given
  obtain ⟨rfl, rfl⟩ := given
  simp only [Except.mapError, sequel_ok]
  apply (Setting.chain_gives distinct text (fun _ => List.mem_append_right _) faithful held).mono
  intro r t given
  obtain ⟨faithfulT, answer⟩ := given
  cases descends : setting.tree.descend .root names with
  | error e => simpa [descends] using answer
  | ok node =>
    rw [descends] at answer
    exact ⟨_, answer.1, Setting.held_shows wellNamed named faithfulT answer.2⟩

section Sample
open ProjgitTables

def sampleTables : Tables where
  commits := [(fixtureId 1, fixtureId 2, 5)]
  trees := [(fixtureId 2, [⟨ascii "a", 0o100644, fixtureId 4⟩, ⟨ascii "d", 0o040000, fixtureId 3⟩]),
    (fixtureId 3, [⟨ascii "l", 0o120000, fixtureId 5⟩])]
  blobs := [(fixtureId 4, ascii "hi\n"), (fixtureId 5, ascii "../a")]

def sampleSpec : MountSpec World := sampleTables.mountSpec (.commit (fixtureId 1)) NoopFetcher

def sampleMount : Mount World := sampleSpec.mount 5

theorem sample_setting : Setting sampleMount sampleTables.objects ⟨[], []⟩ (fixtureId 2) :=
  Tables.setting_commit (c := (fixtureId 2, 5)) (by decide +kernel) (by decide +kernel)
    (by decide +kernel) (by decide +kernel) rfl NoopFetcher 5 []

theorem sample_wellNamed : WellNamed sampleMount.gix sampleTables.objects := by
  have rows : ∀ row ∈ sampleTables.trees, (row.2.map RawTreeEntry.name).Nodup ∧
      ∀ e ∈ row.2, TextName e.name := by decide +kernel
  intro oid es tree
  exact rows (oid, es) (Tables.lookup_member (Tables.treeOf_inv (by decide +kernel) tree))

theorem dotGit_named : Named (.directory dotGit.entries) := by
  refine .directory (by decide +kernel) ?_
  simp only [dotGit, List.mem_singleton, forall_eq]
  refine .directory (by decide +kernel) ?_
  simp only [List.mem_singleton, forall_eq]
  exact .file _ _

def sampleStart : FsState World := sampleSpec.start (.withCapacities 4 64 64 4 ⟨[], []⟩)

def sampleActions : List (FsAction World) :=
  [.lookup rootInode (ascii "a"), .readdir rootInode 0, .work]

theorem sample_link_shown :
    (sampleSpec.new.run.run (.withCapacities 4 64 64 4 ⟨[], []⟩)).1 = .ok (sampleMount, sampleStart) ∧
    ∃ s, exec (fsStep sampleMount) sampleStart sampleActions = some s ∧
      Gives (chainFromRoot sampleMount [ascii "d", ascii "l"]).run s fun r t =>
        ∃ a, r = .ok a ∧ Shows sampleMount sample_setting.tree t a
          (.entry (.tree ⟨ascii "l", .symlink, 0o120000, fixtureId 5⟩)) := by
  have built : (sampleSpec.new.run.run (.withCapacities 4 64 64 4 ⟨[], []⟩)).1 =
      .ok (sampleMount, sampleStart) :=
    Tables.new_built (c := (fixtureId 2, 5)) (by decide +kernel) (by decide +kernel) NoopFetcher
      rfl rfl
  have calm : Meets (fsStep sampleMount) Undisturbed sampleStart sampleActions :=
    ⟨(by decide +kernel : TextName (ascii "a")).1, fun _ _ =>
      ⟨trivial, fun _ _ => ⟨trivial, fun _ _ => trivial⟩⟩⟩
  have text : ∀ c ∈ [ascii "d", ascii "l"], TextName c := by decide +kernel
  have distinct : DistinctKeys sipHash 7 (seen (fsStep sampleMount) (keyOf sampleMount) sampleStart
      sampleActions ++ keysAlong sample_setting.tree [] .root [ascii "d", ascii "l"]) :=
    distinctKeys_of_apart (by decide +kernel)
  obtain ⟨s, run⟩ : ∃ s, exec (fsStep sampleMount) sampleStart sampleActions = some s := ⟨_, rfl⟩
  refine ⟨built, s, run, ?_⟩
  exact mount_refines_merged_tree built sample_setting sample_wellNamed dotGit_named run distinct
    calm text

end Sample
end ProjgitServing

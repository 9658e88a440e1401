import Mathlib.Algebra.GroupWithZero.Nat
import Projgit.ByteNames

/-!
`readdir` of the FUSE adapter (`adapter.rs`) and the loop the kernel drives it with. The
reply buffer of fuser is its capacity; `size` is the room an entry of a given name takes
in it.
-/
namespace ProjgitFuse
open Utf8Bytes ProjgitStore ProjgitProjection ProjgitFs ProjgitServing Stateful

inductive Errno where
  | enoent | enotdir | eisdir | einval | eio | enosys
  deriving DecidableEq

def errnoFor : FsError → Errno
  | .notFound => .enoent
  | .notADirectory => .enotdir
  | .notAFile => .eisdir
  | .notASymlink => .einval
  | .io _ => .eio
  | .unsupported => .enosys

/-- An entry in a reply, with the offset to resume after it. -/
structure Dirent where
  entry : DirEntry
  nextOffset : Nat
  deriving DecidableEq

/-- The loop over `ReplyDirectory::add`, which refuses an entry that does not fit. -/
def fill (size : Bytes → Nat) (capacity : Nat) : Nat → Nat → List DirEntry → List Dirent
  | _, _, [] => []
  | used, offset, entry :: rest =>
    if used + size entry.name ≤ capacity then
      ⟨entry, offset + 1⟩ :: fill size capacity (used + size entry.name) (offset + 1) rest
    else []

section Adapter
variable {m : Type → Type} [Monad m] (provider : FsProvider m) (size : Bytes → Nat)

def readdir (ino : UInt64) (offset capacity : Nat) : ExceptT Errno m (List Dirent) := do
  let entries ← ExceptT.adapt errnoFor (provider.readdir ino offset)
  return fill size capacity 0 offset entries

/-- The kernel: start at `offset`, resume after the last accepted entry, stop when a call
    accepts none. `none` is a loop that has not ended within the fuel. -/
def readdirLoop (ino : UInt64) (capacities : Nat → Nat) :
    Nat → Nat → ExceptT Errno m (Option (List DirEntry))
  | 0, _ => return none
  | fuel + 1, offset => do
    let page ← readdir provider size ino offset (capacities 0)
    match page.getLast? with
    | none => return some []
    | some last =>
      let more ← readdirLoop ino (fun n => capacities (n + 1)) fuel last.nextOffset
      return more.map (page.map Dirent.entry ++ ·)

end Adapter

/-- The loop ends, having delivered what one listing from offset 0 holds. -/
def Delivers {σ : Type} (provider : FsProvider (StateM σ)) (size : Bytes → Nat) (ino : UInt64)
    (capacities : Nat → Nat) (fuel : Nat) (s : σ) : Prop :=
  ∃ out, Gives (provider.readdir ino 0).run s (fun r _ => r = .ok out) ∧
    Gives (readdirLoop provider size ino capacities fuel 0).run s fun r _ => r = .ok (some out)

section Fill
variable {size : Bytes → Nat} {capacity : Nat}

def room (size : Bytes → Nat) (entries : List DirEntry) : Nat :=
  (entries.map fun d => size d.name).sum

theorem fill_all_iff {used offset : Nat} {entries : List DirEntry} (fits : used ≤ capacity) :
    (fill size capacity used offset entries).map Dirent.entry = entries ↔
      used + room size entries ≤ capacity := by
  induction entries generalizing used offset with
  | nil => simp [fill, room, fits]
  | cons entry later ih =>
    unfold fill
    split
    · rename_i next
      rw [List.map_cons, List.cons.injEq, ih next]
      simp only [room, List.map_cons, List.sum_cons, true_and]
      omega
    · rename_i full
      simp only [room, List.map_cons, List.map_nil, List.sum_cons]
      refine iff_of_false (by simp) (by omega)

theorem fill_offset {used offset : Nat} {entries : List DirEntry} {d : Dirent}
    (among : d ∈ fill size capacity used offset entries) : offset < d.nextOffset := by
  induction entries generalizing used offset with
  | nil => cases among
  | cons entry later ih =>
    unfold fill at among
    split at among
    · rcases List.mem_cons.mp among with rfl | inside
      · exact Nat.lt_succ_self offset
      · have after := ih inside
        omega
    · cases among

end Fill

section Provider
variable {ω : Type} {M : Mount ω} {s : FsState ω}

theorem listChildren_names (M : Mount ω) (path : Bytes) (pairs : List (Bytes × ResolvedEntry))
    (s : FsState ω) : Gives (M.listChildren path pairs) s fun out _ =>
      out.map DirEntry.name = pairs.map Prod.fst := by
  induction pairs generalizing s with
  | nil => rfl
  | cons named rest ih =>
    obtain ⟨name, found⟩ := named
    unfold Mount.listChildren
    rw [gives_bind]
    have step := ih ((M.dirEntryFor found (joinPath path name)).run s).2
    change (name :: _) = (name :: _)
    exact congrArg (name :: ·) step

/-- What a directory inode holds, by name: the merged root, the git tree or the synthetic
    directory behind it. -/
inductive Holds (M : Mount ω) (s : FsState ω) : UInt64 → List Bytes → Prop where
  | root {listed : List (Bytes × ResolvedEntry)}
      (answered : Gives (M.projection.readRoot M.bare M.overlay).run s.store fun r _ => r = .ok listed) :
      Holds M s rootInode (listed.map Prod.fst)
  | tree {i : UInt64} {tree : ObjectId} {path : Bytes} {raw : List RawTreeEntry}
      (inner : i ≠ rootInode) (cached : s.attrs.lookup i = some (.treeDir tree path))
      (answered : Gives (M.hydrating.readTree tree).run s.store fun r _ => r = .ok raw) :
      Holds M s i (raw.map RawTreeEntry.name)
  | synthetic {i : UInt64} {children : List (Bytes × SyntheticEntry)} {path : Bytes}
      (inner : i ≠ rootInode) (cached : s.attrs.lookup i = some (.syntheticDir children path)) :
      Holds M s i (children.map Prod.fst)
  | gitlink {i : UInt64} (inner : i ≠ rootInode) (cached : s.attrs.lookup i = some .gitlink) :
      Holds M s i []

theorem readdir_names {i : UInt64} {names : List Bytes} (holds : Holds M s i names) :
    Gives (M.readdir i 0).run s fun r _ => ∃ out, r = .ok out ∧ out.map DirEntry.name = names := by
  unfold Mount.readdir
  simp only [Nat.lt_irrefl, if_false]
  cases holds with
  | @root listed answered =>
    simp only [if_true, gives_run_bind, gives_onStoreOr]
    apply answered.mono
    rintro _ store rfl
    simp only [Except.mapError, sequel_ok, gives_run_bind, gives_run_lift]
    apply (listChildren_names M [] listed _).mono
    exact fun out t names => ⟨out, rfl, names⟩
  | @tree _ tree path raw inner cached answered =>
    simp only [inner, if_false, gives_run_bind, gives_cachedSnapshot cached, sequel_ok,
      gives_onStoreOr]
    apply answered.mono
    rintro _ store rfl
    simp only [Except.mapError, sequel_ok, gives_run_bind, gives_run_lift]
    apply (listChildren_names M path _ _).mono
    intro out t names
    refine ⟨out, rfl, names.trans ?_⟩
    simp [Function.comp_def]
  | @synthetic _ children path inner cached =>
    simp only [inner, if_false, gives_run_bind, gives_cachedSnapshot cached, sequel_ok,
      gives_run_lift]
    apply (listChildren_names M path _ s).mono
    intro out t names
    refine ⟨out, rfl, names.trans ?_⟩
    simp [Function.comp_def]
  | gitlink inner cached =>
    simp only [inner, if_false, gives_run_bind, gives_cachedSnapshot cached, sequel_ok]
    exact ⟨[], rfl, rfl⟩

/-- The provider has one page to give: the loop ends at its second call at the latest. -/
theorem readdirLoop_gives {i : UInt64} {out : List DirEntry} (size : Bytes → Nat)
    (capacities : Nat → Nat) {fuel : Nat} (enough : 2 ≤ fuel)
    (listing : Gives (M.readdir i 0).run s fun r _ => r = .ok out) :
    Gives (readdirLoop M.provider size i capacities fuel 0).run s fun r _ =>
      r = .ok (some ((fill size (capacities 0) 0 0 out).map Dirent.entry)) := by
  obtain ⟨fuel, rfl⟩ := Nat.exists_eq_add_of_le enough
  rw [Nat.add_comm 2 fuel]
  unfold readdirLoop readdir
  simp only [gives_run_bind, gives_run_adapt]
  apply Gives.mono (x := (M.readdir i 0).run) listing
  rintro _ t rfl
  simp only [Except.mapError, sequel_ok, gives_run_pure]
  cases page : (fill size (capacities 0) 0 0 out).getLast? with
  | none =>
    rw [List.getLast?_eq_none_iff] at page
    rw [page]
    rfl
  | some last =>
    have later : 0 < last.nextOffset := fill_offset (List.mem_of_getLast? page)
    simp only [gives_run_bind]
    unfold readdirLoop readdir
    simp only [gives_run_bind, gives_run_adapt]
    apply Gives.mono (x := (M.readdir i last.nextOffset).run) (readdir_later M t i later)
    intro _ _ given
    obtain ⟨rfl, rfl⟩ := given
    simp [fill, Except.mapError]

theorem delivers_iff_one_page {i : UInt64} {names : List Bytes} (holds : Holds M s i names)
    (size : Bytes → Nat) (capacities : Nat → Nat) {fuel : Nat} (enough : 2 ≤ fuel) :
    Delivers M.provider size i capacities fuel s ↔ (names.map size).sum ≤ capacities 0 := by
  obtain ⟨out, listing, named⟩ := readdir_names holds
  have loop := readdirLoop_gives size capacities enough listing
  have fits : (fill size (capacities 0) 0 0 out).map Dirent.entry = out ↔
      (names.map size).sum ≤ capacities 0 := by
    rw [fill_all_iff (Nat.zero_le _), Nat.zero_add, room, ← named, List.map_map]
    rfl
  rw [← fits]
  constructor
  · rintro ⟨out', listing', delivered⟩
    cases listing'.symm.trans listing
    have same := loop.symm.trans delivered
    exact Option.some.inj (Except.ok.inj same)
  · intro whole
    rw [whole] at loop
    exact ⟨out, listing, loop⟩

end Provider

section Sample
open ProjgitTables

/-- A `fuse_dirent`: 24 bytes of header and the name, padded to eight. -/
def direntSize (name : Bytes) : Nat := (24 + name.length + 7) / 8 * 8

/-- Three entries of 32 bytes each in buffers of 64: the third never arrives. -/
theorem second_page_never_delivered :
    (∀ name ∈ [ascii ".git", ascii "a", ascii "d"], direntSize name ≤ 64) ∧
    ∀ fuel, 2 ≤ fuel →
      ¬ Delivers sampleMount.provider direntSize rootInode (fun _ => 64) fuel sampleStart := by
  refine ⟨by decide +kernel, ?_⟩
  intro fuel enough given
  obtain ⟨out, listing, delivered⟩ := given
  have loop := readdirLoop_gives direntSize (fun _ => 64) enough listing
  have whole := Option.some.inj (Except.ok.inj (loop.symm.trans delivered))
  rw [fill_all_iff (Nat.zero_le _)] at whole
  have wide : (match ((sampleMount.readdir rootInode 0).run.run sampleStart).1 with
      | .ok out => room direntSize out
      | .error _ => 0) = 96 := by decide +kernel
  have listed : ((sampleMount.readdir rootInode 0).run.run sampleStart).1 = .ok out := listing
  rw [listed] at wide
  simp only at wide
  omega

theorem sample_root_holds :
    Holds sampleMount sampleStart rootInode [ascii ".git", ascii "a", ascii "d"] := by
  have opened : At sampleMount.gix sampleTables.objects nothing ⟨[], []⟩ sampleStart.store :=
    ⟨truthful_new _ _ _ _ _ _ _ _, rfl⟩
  obtain ⟨-, listed, children, answered⟩ := sample_setting.readRoot_gives opened
  have names : ((sample_setting.tree.children .root).getD []).map Prod.fst =
      [ascii ".git", ascii "a", ascii "d"] := by decide +kernel
  rw [children, Option.getD_some] at names
  rw [← names]
  exact Holds.root answered

theorem sample_root_delivered :
    Holds sampleMount sampleStart rootInode [ascii ".git", ascii "a", ascii "d"] ∧
    Delivers sampleMount.provider direntSize rootInode (fun _ => 4096) 2 sampleStart := by
  have fits : ([ascii ".git", ascii "a", ascii "d"].map direntSize).sum ≤ 4096 := by decide +kernel
  exact ⟨sample_root_holds, (delivers_iff_one_page sample_root_holds direntSize (fun _ => 4096)
    (Nat.le_refl 2)).mpr fits⟩

end Sample
end ProjgitFuse

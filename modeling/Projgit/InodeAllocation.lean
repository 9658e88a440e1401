import Projgit.Lib.FirstWriter
import Projgit.Lib.Runs
import Projgit.FsProvider

/-!
What the inode allocator gives out over a run of calls. The hash is a function of the
key alone, so the answers do not depend on the order of the calls; what an inode
resolves to does, since the first key that reaches an inode keeps it.
-/
namespace ProjgitFs
open Utf8Bytes ProjgitStore LabelledRuns FirstWriter

inductive InodeRequest where
  | treeEntry : ObjectId → Bytes → InodeRequest
  | synthetic : Bytes → InodeRequest
  deriving DecidableEq

namespace InodeRequest

def kind : InodeRequest → InodeKind
  | .treeEntry oid path => .treeEntry oid path
  | .synthetic path => .synthetic path

def InRange : InodeRequest → UInt64 → Prop
  | .treeEntry _ _, inode => 2 ≤ inode.toNat ∧ inode.toNat < 2 ^ 63
  | .synthetic _, inode => 2 ^ 63 ≤ inode.toNat ∧ inode.toNat < 2 ^ 64

end InodeRequest

def InodeAllocator.serve (hasher : Bytes → UInt64) (a : InodeAllocator) :
    InodeRequest → UInt64 × InodeAllocator
  | .treeEntry oid path => a.forTreeEntry hasher oid path
  | .synthetic path => a.forSynthetic hasher path

def inodes (hasher : Bytes → UInt64) (projectionId : UInt64) (calls : List InodeRequest) :
    List UInt64 :=
  (answers (InodeAllocator.serve hasher) (.new projectionId) calls).1

def allocated (hasher : Bytes → UInt64) (projectionId : UInt64) (calls : List InodeRequest) :
    InodeAllocator :=
  (answers (InodeAllocator.serve hasher) (.new projectionId) calls).2

def kindInode (hasher : Bytes → UInt64) (projectionId : UInt64) : InodeKind → UInt64
  | .root => rootInode
  | .treeEntry oid path => hashTree hasher projectionId oid path
  | .synthetic path => syntheticInode hasher projectionId path

def keys (calls : List InodeRequest) : List InodeKind := .root :: calls.map InodeRequest.kind

theorem resolve_new (projectionId inode : UInt64) :
    (InodeAllocator.new projectionId).resolve inode =
      if rootInode = inode then some .root else none := by
  by_cases same : rootInode = inode
  · subst same
    rw [if_pos rfl]
    exact AList.lookup_insert _
  · rw [if_neg same]
    exact (AList.lookup_insert_ne (Ne.symm same)).trans (AList.lookup_empty inode)

theorem resolve_remember (inode other : UInt64) (kind : InodeKind) (a : InodeAllocator) :
    (a.remember inode kind).resolve other =
      (a.resolve other).or (if inode = other then some kind else none) := by
  unfold InodeAllocator.remember InodeAllocator.resolve
  cases found : a.forward.lookup inode with
  | some old =>
    by_cases same : inode = other
    · subst same
      simp [found]
    · simp [same]
  | none =>
    by_cases same : inode = other
    · subst same
      simp [found]
    · simp [AList.lookup_insert_ne (Ne.symm same), same]

section
variable {hasher : Bytes → UInt64} {projectionId : UInt64} {a : InodeAllocator}

/-- The allocator is the table of the keys written so far. -/
def Tabled (hasher : Bytes → UInt64) (projectionId : UInt64) (log : List InodeKind)
    (a : InodeAllocator) : Prop :=
  a.projectionId = projectionId ∧
    ∀ inode, a.resolve inode = holder (kindInode hasher projectionId) log inode

theorem tabled_new : Tabled hasher projectionId [.root] (.new projectionId) := by
  refine ⟨rfl, fun inode => ?_⟩
  rw [resolve_new, holder_single, kindInode]

theorem serve_inode (same : a.projectionId = projectionId) (call : InodeRequest) :
    (a.serve hasher call).1 = kindInode hasher projectionId call.kind := by
  cases call <;> simp [InodeAllocator.serve, InodeAllocator.forTreeEntry,
    InodeAllocator.forSynthetic, InodeRequest.kind, kindInode, same]

theorem serve_remembers (same : a.projectionId = projectionId) (call : InodeRequest) :
    (a.serve hasher call).2 =
      a.remember (kindInode hasher projectionId call.kind) call.kind := by
  cases call <;> simp [InodeAllocator.serve, InodeAllocator.forTreeEntry,
    InodeAllocator.forSynthetic, InodeRequest.kind, kindInode, same]

theorem tabled_serve {log : List InodeKind} (tabled : Tabled hasher projectionId log a)
    (call : InodeRequest) :
    Tabled hasher projectionId (log ++ [call.kind]) (a.serve hasher call).2 := by
  rw [serve_remembers tabled.1]
  refine ⟨(remember_id _ _ a).trans tabled.1, fun inode => ?_⟩
  rw [resolve_remember, tabled.2, holder_append, holder_single]

theorem tabled_run {log : List InodeKind} (tabled : Tabled hasher projectionId log a)
    (calls : List InodeRequest) :
    (answers (InodeAllocator.serve hasher) a calls).1 =
        calls.map (fun call => kindInode hasher projectionId call.kind) ∧
      Tabled hasher projectionId (log ++ calls.map InodeRequest.kind)
        (answers (InodeAllocator.serve hasher) a calls).2 := by
  induction calls generalizing a log with
  | nil => exact ⟨rfl, by simpa [answers] using tabled⟩
  | cons call rest ih =>
    obtain ⟨given, left⟩ := ih (tabled_serve tabled call)
    simp only [answers, List.map_cons]
    exact ⟨by rw [given, serve_inode tabled.1], by simpa using left⟩

variable (hasher projectionId)

theorem inodes_eq_map (calls : List InodeRequest) : inodes hasher projectionId calls =
    calls.map (fun call => kindInode hasher projectionId call.kind) :=
  (tabled_run tabled_new calls).1

theorem resolve_allocated (calls : List InodeRequest) (inode : UInt64) :
    (allocated hasher projectionId calls).resolve inode =
      holder (kindInode hasher projectionId) (keys calls) inode :=
  (tabled_run tabled_new calls).2.2 inode

theorem request_inode_range (call : InodeRequest) :
    call.InRange (kindInode hasher projectionId call.kind) := by
  cases call with
  | treeEntry oid path => exact settle_range _
  | synthetic path => exact ⟨markSynthetic_ge _, UInt64.toNat_lt _⟩

theorem kindInode_eq_root {kind : InodeKind}
    (same : kindInode hasher projectionId kind = rootInode) : kind = .root := by
  cases kind with
  | root => rfl
  | treeEntry oid path => exact absurd same (hashTree_ne_root hasher projectionId oid path)
  | synthetic path => exact absurd same (syntheticInode_ne_root hasher projectionId path)

theorem mem_keys {calls : List InodeRequest} {kind : InodeKind} (member : kind ∈ keys calls) :
    kind = .root ∨ ∃ call ∈ calls, call.kind = kind := by
  simpa [keys] using member

end

/-- The namespaces of one run: where the inodes lie, and what each stands for. -/
structure Namespaces (hasher : Bytes → UInt64) (projectionId : UInt64)
    (calls : List InodeRequest) : Prop where
  answered : (inodes hasher projectionId calls).length = calls.length
  ranged : ∀ (i : Nat) call inode, calls[i]? = some call →
    (inodes hasher projectionId calls)[i]? = some inode → call.InRange inode
  equal_keys : ∀ (i j : Nat) call, calls[i]? = some call → calls[j]? = some call →
    (inodes hasher projectionId calls)[i]? = (inodes hasher projectionId calls)[j]?
  root_only : ∀ inode, (allocated hasher projectionId calls).resolve inode = some .root ↔
    inode = rootInode
  stable : ∀ before after, calls = before ++ after → ∀ inode kind,
    (allocated hasher projectionId before).resolve inode = some kind →
    (allocated hasher projectionId calls).resolve inode = some kind
  known : ∀ inode ∈ inodes hasher projectionId calls,
    ((allocated hasher projectionId calls).resolve inode).isSome
  tree_keys : ∀ (inode : UInt64) kind, 2 ≤ inode.toNat → inode.toNat < 2 ^ 63 →
    (allocated hasher projectionId calls).resolve inode = some kind →
    ∃ oid path, kind = .treeEntry oid path ∧ InodeRequest.treeEntry oid path ∈ calls ∧
      hashTree hasher projectionId oid path = inode
  synthetic_keys : ∀ (inode : UInt64) kind, 2 ^ 63 ≤ inode.toNat →
    (allocated hasher projectionId calls).resolve inode = some kind →
    ∃ path, kind = .synthetic path ∧ InodeRequest.synthetic path ∈ calls ∧
      syntheticInode hasher projectionId path = inode

section
variable (hasher : Bytes → UInt64) (projectionId : UInt64) (calls : List InodeRequest)

theorem resolved_key {inode : UInt64} {kind : InodeKind}
    (found : (allocated hasher projectionId calls).resolve inode = some kind) :
    kindInode hasher projectionId kind = inode ∧
      (kind = .root ∨ ∃ call ∈ calls, call.kind = kind) := by
  rw [resolve_allocated] at found
  exact ⟨holder_key found, mem_keys (holder_mem found)⟩

theorem resolve_root :
    (allocated hasher projectionId calls).resolve rootInode = some .root := by
  rw [resolve_allocated]
  refine holder_self (v := InodeKind.root) (fun kind _ same => ?_) (by simp [keys])
  exact kindInode_eq_root hasher projectionId same

theorem resolved_tree {inode : UInt64} {kind : InodeKind} (low : 2 ≤ inode.toNat)
    (high : inode.toNat < 2 ^ 63)
    (found : (allocated hasher projectionId calls).resolve inode = some kind) :
    ∃ oid path, kind = .treeEntry oid path ∧ InodeRequest.treeEntry oid path ∈ calls ∧
      hashTree hasher projectionId oid path = inode := by
  obtain ⟨same, rfl | ⟨call, member, rfl⟩⟩ := resolved_key hasher projectionId calls found
  · rw [← same, kindInode] at low
    exact absurd low (by decide)
  · cases call with
    | treeEntry oid path => exact ⟨oid, path, rfl, member, same⟩
    | synthetic path =>
      have range := request_inode_range hasher projectionId (.synthetic path)
      rw [same] at range
      exact absurd high (Nat.not_lt.mpr range.1)

theorem resolved_synthetic {inode : UInt64} {kind : InodeKind} (high : 2 ^ 63 ≤ inode.toNat)
    (found : (allocated hasher projectionId calls).resolve inode = some kind) :
    ∃ path, kind = .synthetic path ∧ InodeRequest.synthetic path ∈ calls ∧
      syntheticInode hasher projectionId path = inode := by
  obtain ⟨same, rfl | ⟨call, member, rfl⟩⟩ := resolved_key hasher projectionId calls found
  · rw [← same, kindInode] at high
    exact absurd high (by decide)
  · cases call with
    | treeEntry oid path =>
      have range := request_inode_range hasher projectionId (.treeEntry oid path)
      rw [same] at range
      exact absurd range.2 (Nat.not_lt.mpr high)
    | synthetic path => exact ⟨path, rfl, member, same⟩

theorem inode_namespaces : Namespaces hasher projectionId calls where
  answered := by rw [inodes_eq_map, List.length_map]
  ranged := by
    intro i call inode asked given
    rw [inodes_eq_map, List.getElem?_map, asked] at given
    cases given
    exact request_inode_range hasher projectionId call
  equal_keys := by
    intro i j call first second
    rw [inodes_eq_map, List.getElem?_map, List.getElem?_map, first, second]
  root_only := by
    intro inode
    constructor
    · intro found
      exact (resolved_key hasher projectionId calls found).1.symm
    · rintro rfl
      exact resolve_root hasher projectionId calls
  stable := by
    intro before after split inode kind found
    rw [resolve_allocated] at found ⊢
    subst split
    have longer := holder_stable found (after.map InodeRequest.kind)
    simpa [keys] using longer
  known := by
    intro inode member
    rw [inodes_eq_map] at member
    obtain ⟨call, asked, rfl⟩ := List.mem_map.mp member
    have written : call.kind ∈ keys calls :=
      List.mem_cons_of_mem _ (List.mem_map_of_mem asked)
    obtain ⟨kind, held⟩ := holder_of_mem (kindInode hasher projectionId) written
    rw [resolve_allocated, held]
    rfl
  tree_keys := by
    intro inode kind low high found
    exact resolved_tree hasher projectionId calls low high found
  synthetic_keys := by
    intro inode kind high found
    exact resolved_synthetic hasher projectionId calls high found

end

/-! ### Collisions -/

def lowBits (hashed : UInt64) : UInt64 := hashed &&& ~~~syntheticInodeBit

/-- The step over the reserved values sends the first to where the second already is. -/
def Wraps (low other : UInt64) : Prop := low ≤ rootInode ∧ other = low + 2

instance (low other : UInt64) : Decidable (Wraps low other) := instDecidableAnd

theorem settle_eq_iff (first second : UInt64) : settle first = settle second ↔
    lowBits first = lowBits second ∨ Wraps (lowBits first) (lowBits second) ∨
      Wraps (lowBits second) (lowBits first) := by
  have firstBelow := and_not_bit_lt first
  have secondBelow := and_not_bit_lt second
  have one : (1 : UInt64).toNat = 1 := rfl
  have two : (2 : UInt64).toNat = 2 := rfl
  unfold settle Wraps lowBits
  generalize first &&& ~~~syntheticInodeBit = a at firstBelow ⊢
  generalize second &&& ~~~syntheticInodeBit = b at secondBelow ⊢
  simp only [UInt64.le_iff_toNat_le, rootInode, ← UInt64.toNat_inj]
  split <;> split <;> simp only [UInt64.toNat_add] <;> omega

inductive InodeFamily where
  | tree | synthetic
  deriving DecidableEq

def InodeRequest.family : InodeRequest → InodeFamily
  | .treeEntry _ _ => .tree
  | .synthetic _ => .synthetic

section
variable (hasher : Bytes → UInt64) (projectionId : UInt64)

/-- The 64-bit hash of a key, before any bit of it is dropped. -/
def digest : InodeRequest → UInt64
  | .treeEntry oid path => hasher
      (hashSlice treeTag ++ hashWord projectionId ++ hashSlice oid.bytes ++ hashSlice path)
  | .synthetic path => hasher (hashSlice synthTag ++ hashWord projectionId ++ hashSlice path)

theorem request_inode_eq_iff {first second : InodeRequest}
    (same : first.family = second.family) :
    kindInode hasher projectionId first.kind = kindInode hasher projectionId second.kind ↔
      settle (digest hasher projectionId first) = settle (digest hasher projectionId second) := by
  cases first with
  | treeEntry oid path =>
    cases second with
    | treeEntry oid' path' => exact Iff.rfl
    | synthetic path' => simp [InodeRequest.family] at same
  | synthetic path =>
    cases second with
    | treeEntry oid' path' => simp [InodeRequest.family] at same
    | synthetic path' =>
      constructor
      · intro agree
        exact syntheticInode_injective agree
      · intro agree
        exact congrArg (fun n => markSyntheticInode (n &&& ~~~syntheticInodeBit)) agree

theorem family_of_same_inode {first second : InodeRequest}
    (same : kindInode hasher projectionId first.kind =
      kindInode hasher projectionId second.kind) : first.family = second.family := by
  cases first with
  | treeEntry oid path =>
    cases second with
    | treeEntry oid' path' => rfl
    | synthetic path' =>
      exact absurd same.symm (syntheticInode_ne_hashTree hasher projectionId path' path oid)
  | synthetic path =>
    cases second with
    | treeEntry oid' path' =>
      exact absurd same (syntheticInode_ne_hashTree hasher projectionId path path' oid')
    | synthetic path' => rfl

variable (family : InodeFamily) (calls : List InodeRequest)

/-- The low 63 bits of the distinct keys of a family that a run asks for are distinct. -/
def LowBitsApart : Prop :=
  ∀ first ∈ calls, ∀ second ∈ calls, first.family = family → second.family = family →
    first ≠ second →
    lowBits (digest hasher projectionId first) ≠ lowBits (digest hasher projectionId second)

/-- No key asked for hashes to 0 or 1 while another hashes two above it. -/
def NoWrap : Prop :=
  ∀ first ∈ calls, ∀ second ∈ calls, first.family = family → second.family = family →
    ¬ Wraps (lowBits (digest hasher projectionId first))
      (lowBits (digest hasher projectionId second))

def DistinctInodes : Prop :=
  ∀ (i j : Nat) first second, calls[i]? = some first → calls[j]? = some second →
    first.family = family → second.family = family → first ≠ second →
    (inodes hasher projectionId calls)[i]? ≠ (inodes hasher projectionId calls)[j]?

/-- From the call on, the inode a key was given resolves to that key. -/
def ResolvesOwn : Prop :=
  ∀ before after, calls = before ++ after → ∀ (i : Nat) call inode, before[i]? = some call →
    call.family = family → (inodes hasher projectionId calls)[i]? = some inode →
    (allocated hasher projectionId before).resolve inode = some call.kind

instance : Decidable (LowBitsApart hasher projectionId family calls) :=
  List.decidableBAll _ calls

instance : Decidable (NoWrap hasher projectionId family calls) :=
  List.decidableBAll _ calls

theorem inode_given {i : Nat} {call : InodeRequest} (asked : calls[i]? = some call) :
    (inodes hasher projectionId calls)[i]? =
      some (kindInode hasher projectionId call.kind) := by
  rw [inodes_eq_map, List.getElem?_map, asked]
  rfl

variable {hasher projectionId family calls}

theorem wrap_of_shared (apart : LowBitsApart hasher projectionId family calls)
    {first second : InodeRequest} (one : first ∈ calls) (two : second ∈ calls)
    (family₁ : first.family = family) (family₂ : second.family = family)
    (differ : first ≠ second)
    (same : kindInode hasher projectionId first.kind =
      kindInode hasher projectionId second.kind) :
    ¬ NoWrap hasher projectionId family calls := by
  intro clear
  rw [request_inode_eq_iff hasher projectionId (family₁.trans family₂.symm),
    settle_eq_iff] at same
  rcases same with agree | wraps | wraps
  · exact apart first one second two family₁ family₂ differ agree
  · exact clear first one second two family₁ family₂ wraps
  · exact clear second two first one family₂ family₁ wraps

theorem wraps_ne {low other : UInt64} (wraps : Wraps low other) : low ≠ other := by
  rintro rfl
  have sum := congrArg UInt64.toNat wraps.2
  have two : (2 : UInt64).toNat = 2 := rfl
  have below := UInt64.toNat_lt low
  rw [UInt64.toNat_add] at sum
  omega

theorem noWrap_of_distinct (distinct : DistinctInodes hasher projectionId family calls) :
    NoWrap hasher projectionId family calls := by
  intro first one second two family₁ family₂ wraps
  obtain ⟨i, first_at⟩ := List.getElem?_of_mem one
  obtain ⟨j, second_at⟩ := List.getElem?_of_mem two
  have differ : first ≠ second := by
    rintro rfl
    exact wraps_ne wraps rfl
  apply distinct i j first second first_at second_at family₁ family₂ differ
  rw [inode_given _ _ _ first_at, inode_given _ _ _ second_at]
  have settled := (settle_eq_iff (digest hasher projectionId first)
    (digest hasher projectionId second)).mpr (Or.inr (Or.inl wraps))
  rw [(request_inode_eq_iff hasher projectionId (family₁.trans family₂.symm)).mpr settled]

theorem distinct_of_noWrap (apart : LowBitsApart hasher projectionId family calls)
    (clear : NoWrap hasher projectionId family calls) :
    DistinctInodes hasher projectionId family calls := by
  intro i j first second first_at second_at family₁ family₂ differ same
  rw [inode_given _ _ _ first_at, inode_given _ _ _ second_at] at same
  exact wrap_of_shared apart (List.mem_of_getElem? first_at) (List.mem_of_getElem? second_at)
    family₁ family₂ differ (Option.some.inj same) clear

theorem resolves_of_noWrap (apart : LowBitsApart hasher projectionId family calls)
    (clear : NoWrap hasher projectionId family calls) :
    ResolvesOwn hasher projectionId family calls := by
  intro before after split i call inode asked own given
  have call_at : calls[i]? = some call := by
    rw [split]
    exact List.getElem?_append_left (List.getElem?_eq_some_iff.mp asked).1 ▸ asked
  rw [inode_given _ _ _ call_at] at given
  cases given
  rw [resolve_allocated]
  refine holder_self (v := call.kind) (fun kind member same => ?_)
    (List.mem_cons_of_mem _ (List.mem_map_of_mem (List.mem_of_getElem? asked)))
  rcases mem_keys member with rfl | ⟨other, other_asked, rfl⟩
  · exact (kindInode_eq_root hasher projectionId same.symm).symm
  · by_contra differ
    have family_same := (family_of_same_inode hasher projectionId same).trans own
    refine wrap_of_shared apart (split ▸ List.mem_append_left after other_asked)
      (List.mem_of_getElem? call_at) family_same own ?_ same clear
    rintro rfl
    exact differ rfl

variable (hasher projectionId family calls)

theorem distinct_and_own_iff (apart : LowBitsApart hasher projectionId family calls) :
    DistinctInodes hasher projectionId family calls ∧
        ResolvesOwn hasher projectionId family calls ↔
      NoWrap hasher projectionId family calls := by
  constructor
  · intro holds
    exact noWrap_of_distinct holds.1
  · intro clear
    exact ⟨distinct_of_noWrap apart clear, resolves_of_noWrap apart clear⟩

end

/-- A hasher that tells keys apart by their last byte. -/
def lastByteHasher (bytes : Bytes) : UInt64 :=
  (bytes.getLast?.map UInt8.toUInt64).getD 0

/-- Two paths of one object, the first of which the hasher above sends to 0. -/
def twoPaths (second : UInt8) : List InodeRequest :=
  let oid : ObjectId := ⟨List.replicate 20 7, rfl⟩
  [.treeEntry oid [0], .treeEntry oid [second]]

theorem low_bits_apart_yet_shared :
    LowBitsApart lastByteHasher 0 .tree (twoPaths 2) ∧
      ¬ DistinctInodes lastByteHasher 0 .tree (twoPaths 2) ∧
      ¬ ResolvesOwn lastByteHasher 0 .tree (twoPaths 2) := by
  refine ⟨by decide +kernel, ?_, ?_⟩
  · intro distinct
    refine distinct 0 1 _ _ rfl rfl rfl rfl (by decide) ?_
    decide +kernel
  · intro own
    have second := own (twoPaths 2) [] rfl 1 _ 2 rfl rfl (by decide +kernel)
    revert second
    decide +kernel

theorem unwrapped_paths_own :
    DistinctInodes lastByteHasher 0 .tree (twoPaths 3) ∧
      ResolvesOwn lastByteHasher 0 .tree (twoPaths 3) :=
  (distinct_and_own_iff lastByteHasher 0 .tree (twoPaths 3) (by decide +kernel)).mpr
    (by decide +kernel)

end ProjgitFs

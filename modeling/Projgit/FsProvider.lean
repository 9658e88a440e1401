import Mathlib.Algebra.Group.Nat.Defs
import Projgit.Lib.Stateful
import Projgit.ObjectStore

/-!
The filesystem trait and the inode allocator (`fs_provider.rs`, with the inode bits of
`overlay.rs`). The hash function behind `DefaultHasher` is a parameter over the bytes
that the `Hash` implementations write to it on a 64-bit target.
-/
namespace ProjgitFs
open Utf8Bytes ProjgitStore

inductive FileType where
  | regularFile | directory | symlink
  deriving DecidableEq, Repr

/-- `mtime` is in seconds around the epoch. -/
structure Attr where
  inode : UInt64
  kind : FileType
  size : Nat
  mode : UInt16
  nlink : Nat
  uid : Nat
  gid : Nat
  mtime : Int
  deriving DecidableEq

def Attr.regularFile (inode : UInt64) (size : Nat) (mode : UInt16) : Attr :=
  ⟨inode, .regularFile, size, mode, 1, 0, 0, 0⟩

def Attr.directory (inode : UInt64) : Attr := ⟨inode, .directory, 0, 0o755, 2, 0, 0, 0⟩

def Attr.symlink (inode : UInt64) (targetLen : Nat) : Attr :=
  ⟨inode, .symlink, targetLen, 0o777, 1, 0, 0, 0⟩

structure DirEntry where
  inode : UInt64
  name : Bytes
  kind : FileType
  deriving DecidableEq

inductive FsError where
  | notFound
  | notADirectory
  | notAFile
  | notASymlink
  | io : String → FsError
  | unsupported
  deriving DecidableEq

structure FsProvider (m : Type → Type) where
  lookup : UInt64 → Bytes → ExceptT FsError m Attr
  getattr : UInt64 → ExceptT FsError m Attr
  readdir : UInt64 → Nat → ExceptT FsError m (List DirEntry)
  read : UInt64 → Nat → Nat → ExceptT FsError m Bytes
  readlink : UInt64 → ExceptT FsError m Bytes

def rootInode : UInt64 := 1

def syntheticInodeBit : UInt64 := (1 : UInt64) <<< (63 : UInt64)

def markSyntheticInode (inode : UInt64) : UInt64 := inode ||| syntheticInodeBit

inductive InodeKind where
  | root
  | treeEntry : ObjectId → Bytes → InodeKind
  | synthetic : Bytes → InodeKind
  deriving DecidableEq

/-- The bytes a `u64` (or a length) adds to the hasher. -/
def hashWord (n : UInt64) : Bytes :=
  (List.range 8).map fun i => (n >>> UInt64.ofNat (8 * i)).toUInt8

/-- The bytes a slice adds to the hasher: its length, then itself. -/
def hashSlice (bytes : Bytes) : Bytes := hashWord (UInt64.ofNat bytes.length) ++ bytes

/-- The end of both hash functions: drop the synthetic bit and step over 0 and 1. -/
def settle (hashed : UInt64) : UInt64 :=
  let raw := hashed &&& ~~~syntheticInodeBit
  if raw ≤ rootInode then raw + 2 else raw

def treeTag : Bytes := [116, 114, 101, 101]

def synthTag : Bytes := [115, 121, 110, 116, 104]

def hashTree (hasher : Bytes → UInt64) (projectionId : UInt64) (oid : ObjectId) (path : Bytes) :
    UInt64 :=
  settle (hasher
    (hashSlice treeTag ++ hashWord projectionId ++ hashSlice oid.bytes ++ hashSlice path))

def hashSynthetic (hasher : Bytes → UInt64) (projectionId : UInt64) (path : Bytes) : UInt64 :=
  settle (hasher (hashSlice synthTag ++ hashWord projectionId ++ hashSlice path))

def syntheticInode (hasher : Bytes → UInt64) (projectionId : UInt64) (path : Bytes) : UInt64 :=
  markSyntheticInode (hashSynthetic hasher projectionId path &&& ~~~syntheticInodeBit)

structure InodeAllocator where
  projectionId : UInt64
  forward : AList (fun _ : UInt64 => InodeKind)

namespace InodeAllocator

def new (projectionId : UInt64) : InodeAllocator :=
  ⟨projectionId, AList.insert rootInode .root ∅⟩

def remember (inode : UInt64) (kind : InodeKind) (a : InodeAllocator) : InodeAllocator :=
  match a.forward.lookup inode with
  | some _ => a
  | none => { a with forward := a.forward.insert inode kind }

def forTreeEntry (hasher : Bytes → UInt64) (oid : ObjectId) (path : Bytes)
    (a : InodeAllocator) : UInt64 × InodeAllocator :=
  let inode := hashTree hasher a.projectionId oid path
  (inode, a.remember inode (.treeEntry oid path))

def forSynthetic (hasher : Bytes → UInt64) (path : Bytes) (a : InodeAllocator) :
    UInt64 × InodeAllocator :=
  let inode := syntheticInode hasher a.projectionId path
  (inode, a.remember inode (.synthetic path))

def resolve (inode : UInt64) (a : InodeAllocator) : Option InodeKind := a.forward.lookup inode

end InodeAllocator

theorem remember_id (inode : UInt64) (kind : InodeKind) (a : InodeAllocator) :
    (a.remember inode kind).projectionId = a.projectionId := by
  unfold InodeAllocator.remember
  split <;> rfl

theorem and_not_bit_lt (n : UInt64) : (n &&& ~~~syntheticInodeBit).toNat < 2 ^ 63 := by
  have mask : (~~~syntheticInodeBit).toNat = 2 ^ 63 - 1 := by decide
  rw [UInt64.toNat_and, mask, Nat.and_two_pow_sub_one_eq_mod]
  exact Nat.mod_lt _ (by decide)

theorem settle_range (hashed : UInt64) : 2 ≤ (settle hashed).toNat ∧ (settle hashed).toNat < 2 ^ 63 := by
  have below := and_not_bit_lt hashed
  unfold settle
  simp only [UInt64.le_iff_toNat_le, rootInode]
  split
  · rename_i small
    rw [UInt64.toNat_add]
    have one : (1 : UInt64).toNat = 1 := rfl
    have two : (2 : UInt64).toNat = 2 := rfl
    omega
  · rename_i large
    have one : (1 : UInt64).toNat = 1 := rfl
    omega

theorem markSynthetic_ge (n : UInt64) : 2 ^ 63 ≤ (markSyntheticInode n).toNat := by
  unfold markSyntheticInode
  rw [UInt64.toNat_or]
  have bit : syntheticInodeBit.toNat = 2 ^ 63 := by decide
  rw [bit]
  exact Nat.right_le_or

theorem markSynthetic_injective {a b : UInt64} (lowA : a.toNat < 2 ^ 63) (lowB : b.toNat < 2 ^ 63)
    (same : markSyntheticInode (a &&& ~~~syntheticInodeBit) =
      markSyntheticInode (b &&& ~~~syntheticInodeBit)) : a = b := by
  have value : ∀ n : UInt64, n.toNat < 2 ^ 63 →
      (markSyntheticInode (n &&& ~~~syntheticInodeBit)).toNat = n.toNat + 2 ^ 63 := by
    intro n low
    have mask : (~~~syntheticInodeBit).toNat = 2 ^ 63 - 1 := by decide
    have bit : syntheticInodeBit.toNat = 2 ^ 63 * 1 := by decide
    rw [markSyntheticInode, UInt64.toNat_or, UInt64.toNat_and, mask, bit,
      Nat.and_two_pow_sub_one_eq_mod, Nat.mod_eq_of_lt low, Nat.or_comm,
      ← Nat.two_pow_add_eq_or_of_lt low]
    omega
  apply UInt64.toNat_inj.mp
  have sum := congrArg UInt64.toNat same
  rw [value a lowA, value b lowB] at sum
  omega

section
variable (hasher : Bytes → UInt64) (projectionId : UInt64)

theorem hashTree_ne_root (oid : ObjectId) (path : Bytes) :
    hashTree hasher projectionId oid path ≠ rootInode := by
  intro same
  have range := settle_range (hasher
    (hashSlice treeTag ++ hashWord projectionId ++ hashSlice oid.bytes ++ hashSlice path))
  rw [hashTree] at same
  rw [same] at range
  exact absurd range.1 (by decide)

theorem syntheticInode_ne_root (path : Bytes) :
    syntheticInode hasher projectionId path ≠ rootInode := by
  intro same
  have high := markSynthetic_ge (hashSynthetic hasher projectionId path &&& ~~~syntheticInodeBit)
  rw [syntheticInode] at same
  rw [same] at high
  exact absurd high (by decide)

variable {hasher projectionId} in
theorem syntheticInode_injective {path other : Bytes}
    (same : syntheticInode hasher projectionId path = syntheticInode hasher projectionId other) :
    hashSynthetic hasher projectionId path = hashSynthetic hasher projectionId other :=
  markSynthetic_injective (settle_range _).2 (settle_range _).2 same

theorem syntheticInode_ne_hashTree (path other : Bytes) (oid : ObjectId) :
    syntheticInode hasher projectionId path ≠ hashTree hasher projectionId oid other := by
  intro same
  have high := markSynthetic_ge (hashSynthetic hasher projectionId path &&& ~~~syntheticInodeBit)
  have range := settle_range (hasher
    (hashSlice treeTag ++ hashWord projectionId ++ hashSlice oid.bytes ++ hashSlice other))
  rw [syntheticInode, hashTree] at same
  rw [same] at high
  omega

end
end ProjgitFs

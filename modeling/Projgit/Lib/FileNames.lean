import Mathlib.Logic.Function.Basic

/- A directory of files: names point at inodes, inodes hold what was written. Some names are
   final; a file is written under another name and then renamed to its final one. A file whose
   every name is final is settled: nobody has it open for writing. -/
namespace FileNames
universe u v
variable {P : Type u} {B : Type v} [DecidableEq P]

structure Dir (P : Type u) (B : Type v) where
  names : P → Option Nat
  contents : Nat → List B
  next : Nat

namespace Dir

def empty : Dir P B := ⟨fun _ => none, fun _ => [], 0⟩

/-- A fresh file; whatever had the name loses it. -/
def create (p : P) (bytes : List B) (d : Dir P B) : Dir P B :=
  ⟨Function.update d.names p (some d.next), Function.update d.contents d.next bytes, d.next + 1⟩

def append (i : Nat) (b : B) (d : Dir P B) : Dir P B :=
  { d with contents := Function.update d.contents i (d.contents i ++ [b]) }

def unlink (p : P) (d : Dir P B) : Dir P B :=
  { d with names := Function.update d.names p none }

/-- The file moves to `q` in one step; whatever had that name loses it. -/
def rename (p q : P) (d : Dir P B) : Dir P B :=
  { d with names := Function.update (Function.update d.names p none) q (d.names p) }

end Dir

/-- Every name points at a file there is, and no two at the same one. -/
structure Sound (d : Dir P B) : Prop where
  bounded : ∀ p i, d.names p = some i → i < d.next
  single : ∀ p q i, d.names p = some i → d.names q = some i → p = q

def Settled (final : P → Prop) (d : Dir P B) (i : Nat) : Prop :=
  i < d.next ∧ ∀ p, d.names p = some i → final p

/-- What is under a final name is as it should be. -/
def Published (final : P → Prop) (good : P → List B → Prop) (d : Dir P B) : Prop :=
  ∀ p i, final p → d.names p = some i → good p (d.contents i)

/-- Settled files stay settled, and nothing is written to them. -/
def Kept (final : P → Prop) (d e : Dir P B) : Prop :=
  ∀ i, Settled final d i → Settled final e i ∧ e.contents i = d.contents i

variable {final : P → Prop} {good : P → List B → Prop} {d e f : Dir P B} {p q : P} {i j : Nat}

omit [DecidableEq P] in
theorem kept_refl (d : Dir P B) : Kept final d d := fun _ settled => ⟨settled, rfl⟩

omit [DecidableEq P] in
theorem Kept.trans (first : Kept final d e) (second : Kept final e f) : Kept final d f := by
  intro i settled
  obtain ⟨middle, same⟩ := first i settled
  obtain ⟨last, same'⟩ := second i middle
  exact ⟨last, same'.trans same⟩

omit [DecidableEq P] in
theorem Sound.settled (sound : Sound d) (fin : final p) (named : d.names p = some i) :
    Settled final d i := by
  refine ⟨sound.bounded p i named, fun q other => ?_⟩
  rw [sound.single q p i other named]
  exact fin

theorem create_names (bytes : List B) (q : P) :
    (d.create p bytes).names q = if q = p then some d.next else d.names q := by
  simp [Dir.create, Function.update_apply]

theorem unlink_names (q : P) : (d.unlink p).names q = if q = p then none else d.names q := by
  simp [Dir.unlink, Function.update_apply]

theorem rename_names (r : P) :
    (d.rename p q).names r = if r = q then d.names p else if r = p then none else d.names r := by
  simp [Dir.rename, Function.update_apply]

/-! ### A name is taken -/

theorem create_sound (sound : Sound d) (bytes : List B) : Sound (d.create p bytes) := by
  constructor
  · intro r i named
    rw [create_names] at named
    split at named
    · cases named
      exact Nat.lt_succ_self _
    · exact Nat.lt_succ_of_lt (sound.bounded r i named)
  · intro r s i first second
    rw [create_names] at first second
    split at first <;> split at second
    · rename_i one two
      rw [one, two]
    · cases first
      exact absurd (sound.bounded s _ second) (Nat.lt_irrefl _)
    · cases second
      exact absurd (sound.bounded r _ first) (Nat.lt_irrefl _)
    · exact sound.single r s i first second

theorem create_contents (bytes : List B) (older : i < d.next) :
    (d.create p bytes).contents i = d.contents i :=
  Function.update_of_ne (Nat.ne_of_lt older) _ _

theorem create_kept (bytes : List B) : Kept final d (d.create p bytes) := by
  intro i settled
  refine ⟨⟨Nat.lt_succ_of_lt settled.1, fun q named => ?_⟩, create_contents bytes settled.1⟩
  rw [create_names] at named
  split at named
  · cases named
    exact absurd settled.1 (Nat.lt_irrefl _)
  · exact settled.2 q named

theorem create_published (sound : Sound d) (published : Published final good d) {bytes : List B}
    (fits : final p → good p bytes) : Published final good (d.create p bytes) := by
  intro q i fin named
  rw [create_names] at named
  split at named
  · rename_i here
    subst here
    cases named
    simp only [Dir.create, Function.update_self]
    exact fits fin
  · rw [create_contents bytes (sound.bounded q i named)]
    exact published q i fin named

/-! ### A file is written to -/

omit [DecidableEq P] in
theorem append_kept {b : B} (named : d.names p = some i) (draft : ¬ final p) :
    Kept final d (d.append i b) := by
  intro j settled
  have other : j ≠ i := by
    rintro rfl
    exact draft (settled.2 p named)
  exact ⟨settled, Function.update_of_ne other _ _⟩

omit [DecidableEq P] in
theorem append_published {b : B} (sound : Sound d) (published : Published final good d)
    (named : d.names p = some i) (draft : ¬ final p) : Published final good (d.append i b) := by
  intro q j fin there
  have kept := append_kept (b := b) named draft j (sound.settled fin there)
  rw [kept.2]
  exact published q j fin there

/-! ### A name is given up -/

theorem unlink_sound (sound : Sound d) : Sound (d.unlink p) := by
  constructor
  · intro q i named
    rw [unlink_names] at named
    split at named
    · cases named
    · exact sound.bounded q i named
  · intro q r i first second
    rw [unlink_names] at first second
    split at first <;> split at second
    · cases first
    · cases first
    · cases second
    · exact sound.single q r i first second

theorem unlink_kept : Kept final d (d.unlink p) := by
  intro i settled
  refine ⟨⟨settled.1, fun q named => ?_⟩, rfl⟩
  rw [unlink_names] at named
  split at named
  · cases named
  · exact settled.2 q named

theorem unlink_published (published : Published final good d) :
    Published final good (d.unlink p) := by
  intro q i fin named
  rw [unlink_names] at named
  split at named
  · cases named
  · exact published q i fin named

/-! ### A file is published -/

theorem rename_sound (sound : Sound d) : Sound (d.rename p q) := by
  constructor
  · intro r i named
    rw [rename_names] at named
    split at named
    · exact sound.bounded p i named
    · split at named
      · cases named
      · exact sound.bounded r i named
  · intro r s i first second
    rw [rename_names] at first second
    split at first <;> split at second
    · rename_i one two
      rw [one, two]
    · split at second
      · cases second
      · rename_i differ
        exact absurd (sound.single s p i second first) differ
    · split at first
      · cases first
      · rename_i differ
        exact absurd (sound.single r p i first second) differ
    · split at first <;> split at second
      · cases first
      · cases first
      · cases second
      · exact sound.single r s i first second

theorem rename_kept (fin : final q) : Kept final d (d.rename p q) := by
  intro i settled
  refine ⟨⟨settled.1, fun r named => ?_⟩, rfl⟩
  rw [rename_names] at named
  split at named
  · rename_i here
    exact here ▸ fin
  · split at named
    · cases named
    · exact settled.2 r named

theorem rename_published (published : Published final good d)
    (complete : ∀ i, d.names p = some i → final q → good q (d.contents i)) :
    Published final good (d.rename p q) := by
  intro r i fin named
  rw [rename_names] at named
  split at named
  · rename_i here
    subst here
    exact complete i named fin
  · split at named
    · cases named
    · exact published r i fin named

end FileNames

import Mathlib.Data.List.AList
import Mathlib.Data.List.Dedup
import Mathlib.Data.List.Sort

/- A keyed store whose entries carry stamps, with a second map from stamp back to key.
   Both describe one list, oldest stamp first; every operation on the two maps is an
   operation on that list. -/
namespace RecencyIndex
variable {K E : Type} [DecidableEq K]

structure Indexed (stamp : E → Nat) (entries : AList fun _ : K => E)
    (order : AList fun _ : Nat => K) (next : Nat) (items : List (K × E)) : Prop where
  increasing : items.Pairwise fun a b => stamp a.2 < stamp b.2
  found : ∀ key e, entries.lookup key = some e ↔ (key, e) ∈ items
  back : ∀ gen key, order.lookup gen = some key ↔ ∃ e, (key, e) ∈ items ∧ stamp e = gen
  issued : ∀ item ∈ items, stamp item.2 ≤ next

variable {stamp : E → Nat} {entries : AList fun _ : K => E} {order : AList fun _ : Nat => K}
  {next : Nat} {items : List (K × E)} {key : K} {e : E}

theorem Indexed.empty (stamp : E → Nat) (next : Nat) :
    Indexed stamp (∅ : AList fun _ : K => E) ∅ next [] :=
  ⟨List.Pairwise.nil, by simp, by simp, by simp⟩

theorem Indexed.key_unique (index : Indexed stamp entries order next items)
    {e e' : E} (one : (key, e) ∈ items) (other : (key, e') ∈ items) : e = e' := by
  have first := (index.found key e).mpr one
  have second := (index.found key e').mpr other
  exact Option.some.inj (first.symm.trans second)

theorem Indexed.stamp_unique (index : Indexed stamp entries order next items)
    {key' : K} {e e' : E} (one : (key, e) ∈ items) (other : (key', e') ∈ items)
    (same : stamp e = stamp e') : key = key' := by
  have first := (index.back (stamp e) key).mpr ⟨e, one, rfl⟩
  have second := (index.back (stamp e) key').mpr ⟨e', other, same.symm⟩
  exact Option.some.inj (first.symm.trans second)

theorem Indexed.nodup (index : Indexed stamp entries order next items) : items.Nodup := by
  refine index.increasing.imp ?_
  intro a b below same
  rw [same] at below
  exact Nat.lt_irrefl _ below

theorem Indexed.absent (index : Indexed stamp entries order next items) :
    entries.lookup key = none ↔ ∀ e, (key, e) ∉ items := by
  rw [Option.eq_none_iff_forall_ne_some]
  exact forall_congr' fun e => not_congr (index.found key e)

/-- Only the lookups matter, not how the two maps were built. -/
theorem Indexed.of_lookups (index : Indexed stamp entries order next items)
    {entries' : AList fun _ : K => E} {order' : AList fun _ : Nat => K}
    (same : ∀ key, entries'.lookup key = entries.lookup key)
    (same_order : ∀ gen, order'.lookup gen = order.lookup gen) :
    Indexed stamp entries' order' next items where
  increasing := index.increasing
  found := fun key e => by rw [same, index.found]
  back := fun gen key => by rw [same_order, index.back]
  issued := index.issued

theorem Indexed.forget (index : Indexed stamp entries order next items)
    (member : (key, e) ∈ items) :
    Indexed stamp (entries.erase key) (order.erase (stamp e)) next
      (items.filter fun item => item.1 ≠ key) where
  increasing := index.increasing.filter _
  found := by
    intro other e'
    by_cases same : other = key
    · subst same
      simp
    · rw [AList.lookup_erase_ne same, index.found]
      simp [same]
  back := by
    intro gen other
    by_cases same : gen = stamp e
    · subst same
      -- The one item with this stamp is the one that is dropped.
      simp only [AList.lookup_erase, reduceCtorEq, false_iff, not_exists, not_and]
      intro e' kept equal
      have kept := List.mem_filter.mp kept
      exact of_decide_eq_true kept.2 (index.stamp_unique kept.1 member equal)
    · rw [AList.lookup_erase_ne same, index.back]
      constructor
      · rintro ⟨e', other_member, rfl⟩
        refine ⟨e', List.mem_filter.mpr ⟨other_member, decide_eq_true ?_⟩, rfl⟩
        rintro rfl
        exact same (congrArg stamp (index.key_unique other_member member))
      · rintro ⟨e', kept, rfl⟩
        exact ⟨e', (List.mem_filter.mp kept).1, rfl⟩
  issued := fun item kept => index.issued item (List.mem_filter.mp kept).1

theorem Indexed.insert (index : Indexed stamp entries order next items)
    (absent : ∀ e, (key, e) ∉ items) (fresh : stamp e = next + 1) :
    Indexed stamp (entries.insert key e) (order.insert (next + 1) key) (next + 1)
      (items ++ [(key, e)]) where
  increasing := by
    refine List.pairwise_append.mpr ⟨index.increasing, List.pairwise_singleton _ _, ?_⟩
    intro item member added same
    rw [List.mem_singleton] at same
    have bound := index.issued item member
    rw [same, fresh]
    omega
  found := by
    intro other e'
    by_cases same : other = key
    · subst same
      simp [absent, eq_comm]
    · rw [AList.lookup_insert_ne same, index.found]
      simp [same]
  back := by
    intro gen other
    by_cases same : gen = next + 1
    · subst same
      simp only [AList.lookup_insert, Option.some.injEq, List.mem_append, List.mem_singleton,
        Prod.mk.injEq]
      constructor
      · rintro rfl
        exact ⟨e, Or.inr ⟨rfl, rfl⟩, fresh⟩
      · rintro ⟨e', old | ⟨rfl, rfl⟩, equal⟩
        · have bound := index.issued _ old
          simp only at bound
          omega
        · rfl
    · rw [AList.lookup_insert_ne same, index.back]
      simp only [List.mem_append, List.mem_singleton, Prod.mk.injEq]
      constructor
      · rintro ⟨e', old, equal⟩
        exact ⟨e', Or.inl old, equal⟩
      · rintro ⟨e', old | ⟨rfl, rfl⟩, equal⟩
        · exact ⟨e', old, equal⟩
        · exact absurd (equal.symm.trans fresh) same
  issued := by
    intro item member
    simp only [List.mem_append, List.mem_singleton] at member
    rcases member with old | rfl
    · exact Nat.le_succ_of_le (index.issued item old)
    · exact Nat.le_of_eq fresh

/-- A key that is restamped, with a new entry or its old one, becomes the newest. -/
theorem Indexed.promote (index : Indexed stamp entries order next items)
    (member : (key, e) ∈ items) {e' : E} (fresh : stamp e' = next + 1) :
    Indexed stamp (entries.insert key e') ((order.erase (stamp e)).insert (next + 1) key)
      (next + 1) ((items.filter fun item => item.1 ≠ key) ++ [(key, e')]) := by
  have forgotten : ∀ e', (key, e') ∉ items.filter fun item => item.1 ≠ key := by simp
  have inserted := (index.forget member).insert forgotten fresh
  refine inserted.of_lookups ?_ fun _ => rfl
  intro other
  by_cases same : other = key
  · subst same
    simp
  · rw [AList.lookup_insert_ne same, AList.lookup_insert_ne same, AList.lookup_erase_ne same]

theorem Indexed.dropOldest {rest : List (K × E)}
    (index : Indexed stamp entries order next ((key, e) :: rest)) :
    Indexed stamp (entries.erase key) (order.erase (stamp e)) next rest := by
  have forgotten := index.forget List.mem_cons_self
  have others : ∀ item ∈ rest, item.1 ≠ key := by
    rintro ⟨other, e'⟩ member rfl
    have same := index.key_unique (List.mem_cons_of_mem _ member) List.mem_cons_self
    subst same
    exact (List.nodup_cons.mp index.nodup).1 member
  rwa [List.filter_cons_of_neg (by simp),
    List.filter_eq_self.mpr fun item member => decide_eq_true (others item member)] at forgotten

def pairs {A B : Type} (m : AList fun _ : A => B) : List (A × B) :=
  m.entries.map fun s => (s.1, s.2)

theorem mem_pairs {A B : Type} [DecidableEq A] (m : AList fun _ : A => B) (a : A) (b : B) :
    (a, b) ∈ pairs m ↔ m.lookup a = some b := by
  rw [← Option.mem_def, AList.mem_lookup_iff]
  simp [pairs]

theorem pairs_fst {A B : Type} (m : AList fun _ : A => B) : (pairs m).map Prod.fst = m.keys := by
  simp [pairs, AList.keys, List.keys]

theorem pairs_perm {A B : Type} [DecidableEq A] {m : AList fun _ : A => B} {l : List (A × B)}
    (distinct : l.Nodup) (found : ∀ a b, m.lookup a = some b ↔ (a, b) ∈ l) :
    (pairs m).Perm l := by
  have nodup : (pairs m).Nodup := by
    refine List.Nodup.of_map Prod.fst ?_
    rw [pairs_fst]
    exact m.keys_nodup
  rw [List.perm_ext_iff_of_nodup nodup distinct]
  rintro ⟨a, b⟩
  rw [mem_pairs, found]

theorem Indexed.entries_perm (index : Indexed stamp entries order next items) :
    (pairs entries).Perm items := pairs_perm index.nodup index.found

theorem Indexed.size (index : Indexed stamp entries order next items) :
    entries.keys.length = items.length := by
  rw [← pairs_fst, List.length_map, index.entries_perm.length_eq]

theorem Indexed.order_perm (index : Indexed stamp entries order next items) :
    (pairs order).Perm (items.map fun item => (stamp item.2, item.1)) := by
  refine pairs_perm ?_ fun gen key => ?_
  · refine List.pairwise_map.mpr (index.increasing.imp ?_)
    intro a b below same
    exact Nat.ne_of_lt below (congrArg Prod.fst same)
  · rw [index.back]
    simp [and_comm]

theorem Indexed.order_keys_perm (index : Indexed stamp entries order next items) :
    order.keys.Perm (items.map fun item => stamp item.2) := by
  have perm := index.order_perm.map Prod.fst
  rwa [pairs_fst, List.map_map] at perm

theorem Indexed.order_size (index : Indexed stamp entries order next items) :
    order.keys.length = items.length := by
  rw [index.order_keys_perm.length_eq, List.length_map]

theorem Indexed.least (index : Indexed stamp entries order next items) :
    order.keys.min? = items.head?.map fun item => stamp item.2 := by
  cases items with
  | nil =>
    have empty := List.perm_nil.mp index.order_keys_perm
    simp [empty]
  | cons first rest =>
    rw [List.head?_cons, Option.map_some, List.min?_eq_some_iff]
    have same : ∀ gen, gen ∈ order.keys ↔ gen ∈ (first :: rest).map fun item => stamp item.2 :=
      fun gen => index.order_keys_perm.mem_iff
    refine ⟨(same _).mpr (by simp), ?_⟩
    intro gen member
    have listed := (same gen).mp member
    rw [List.map_cons, List.mem_cons] at listed
    rcases listed with rfl | later
    · exact Nat.le_refl _
    · obtain ⟨item, of_rest, rfl⟩ := List.mem_map.mp later
      exact Nat.le_of_lt ((List.pairwise_cons.mp index.increasing).1 item of_rest)

theorem Indexed.least_key (index : Indexed stamp entries order next ((key, e) :: items)) :
    order.lookup (stamp e) = some key :=
  (index.back (stamp e) key).mpr ⟨e, List.mem_cons_self, rfl⟩

/-- Reading the second map in ascending order lists the items. -/
theorem Indexed.sorted (index : Indexed stamp entries order next items) :
    order.keys.mergeSort (· ≤ ·) = items.map fun item => stamp item.2 := by
  have ascending : (items.map fun item => stamp item.2).Pairwise (· ≤ ·) :=
    List.pairwise_map.mpr (index.increasing.imp Nat.le_of_lt)
  have perm := (List.mergeSort_perm order.keys (· ≤ ·)).trans index.order_keys_perm
  exact perm.eq_of_pairwise (fun _ _ _ _ => Nat.le_antisymm)
    (List.pairwise_mergeSort' (· ≤ ·) order.keys) ascending

theorem Indexed.without_perm (index : Indexed stamp entries order next items)
    (member : (key, e) ∈ items) :
    items.Perm ((key, e) :: items.filter fun item => item.1 ≠ key) := by
  have distinct : ((key, e) :: items.filter fun item => item.1 ≠ key).Nodup :=
    List.nodup_cons.mpr ⟨by simp, index.nodup.filter _⟩
  rw [List.perm_ext_iff_of_nodup index.nodup distinct]
  rintro ⟨other, e'⟩
  rw [List.mem_cons, List.mem_filter]
  constructor
  · intro listed
    by_cases same : other = key
    · subst same
      exact Or.inl (by rw [index.key_unique listed member])
    · exact Or.inr ⟨listed, decide_eq_true same⟩
  · rintro (same | kept)
    · exact same ▸ member
    · exact kept.1

/-! ### The order of last use: `dedup` keeps last occurrences -/

theorem dedup_concat (uses : List K) (key : K) :
    (uses ++ [key]).dedup = (uses.dedup.filter fun other => other ≠ key) ++ [key] := by
  induction uses with
  | nil => rfl
  | cons first rest ih =>
    rw [List.cons_append]
    by_cases again : first ∈ rest
    · rw [List.dedup_cons_of_mem (List.mem_append_left _ again), ih, List.dedup_cons_of_mem again]
    · rw [List.dedup_cons_of_notMem again]
      by_cases same : first = key
      · subst same
        rw [List.dedup_cons_of_mem (by simp), ih, List.filter_cons_of_neg (by simp)]
      · rw [List.dedup_cons_of_notMem (by simp [again, same]), ih,
          List.filter_cons_of_pos (by simpa using same), List.cons_append]

theorem use_kept {kept uses : List K} (recent : kept.Sublist uses.dedup) (key : K) :
    ((kept.filter fun other => other ≠ key) ++ [key]).Sublist (uses ++ [key]).dedup := by
  rw [dedup_concat]
  exact (recent.filter _).append (List.Sublist.refl _)

theorem filter_missing {kept : List K} {key : K} (missing : key ∉ kept) :
    (kept.filter fun other => other ≠ key) = kept := by
  refine List.filter_eq_self.mpr fun other member => decide_eq_true ?_
  rintro rfl
  exact missing member

theorem use_missed {kept uses : List K} (recent : kept.Sublist uses.dedup) {key : K}
    (missing : key ∉ kept) : kept.Sublist (uses ++ [key]).dedup := by
  have shorter := use_kept recent key
  rw [filter_missing missing] at shorter
  exact (List.sublist_append_left _ _).trans shorter

omit [DecidableEq K] in
/-- What is kept of a list without repetitions is found by asking for each of its elements. -/
theorem filterMap_kept {V : Type} {kept all : List K} (recent : kept.Sublist all)
    (distinct : all.Nodup) {read : K → Option V}
    (only : ∀ key ∈ all, key ∉ kept → read key = none) :
    all.filterMap read = kept.filterMap read := by
  induction recent with
  | slnil => rfl
  | @cons kept rest key recent ih =>
    obtain ⟨fresh, distinct⟩ := List.nodup_cons.mp distinct
    have gone := only key List.mem_cons_self fun member => fresh (recent.subset member)
    rw [List.filterMap_cons_none gone]
    exact ih distinct fun other member => only other (List.mem_cons_of_mem _ member)
  | @cons_cons kept rest key recent ih =>
    obtain ⟨fresh, distinct⟩ := List.nodup_cons.mp distinct
    have later := ih distinct fun other member missing => by
      refine only other (List.mem_cons_of_mem _ member) fun listed => ?_
      rcases List.mem_cons.mp listed with rfl | listed
      · exact fresh member
      · exact missing listed
    rw [List.filterMap_cons, List.filterMap_cons, later]

end RecencyIndex

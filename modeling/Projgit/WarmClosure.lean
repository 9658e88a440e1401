import Mathlib.Data.Nat.Digits.Lemmas
import Projgit.Hydration
import Projgit.Lib.BreadthFirst
import Projgit.Tables
import Projgit.WarmTree

/-!
`warm_tree_closure` covers the trees below its root exactly once. The loop is compared
with a copy that returns what it read; the copy's answers are a record of a breadth-first
search, from whatever is resident and with any honest fetcher.
-/
namespace ProjgitStore
open Utf8Bytes ProjgitProjection Stateful LabelledRuns BreadthFirst Relation
variable {ω : Type}

abbrev TreeRead := ObjectId × Except HydrateError (List RawTreeEntry)

def directories (entries : List RawTreeEntry) : List ObjectId :=
  (entries.filter fun e => (EntryMode.fromRaw e.modeRaw).isDir).map RawTreeEntry.oid

def found : Except HydrateError (List RawTreeEntry) → List ObjectId
  | .ok entries => directories entries
  | .error _ => []

def answersOf (reads : List TreeRead) : List (ObjectId × List ObjectId) :=
  reads.map fun read => (read.1, found read.2)

def tally (reads : List TreeRead) (levels : Nat) : WarmTreeStats where
  treesWarmed := (reads.filter fun read => read.2.toBool).length
  levels := levels
  errors := (reads.filter fun read => !read.2.toBool).length

def WarmTreeStats.add (a b : WarmTreeStats) : WarmTreeStats :=
  ⟨a.treesWarmed + b.treesWarmed, a.levels + b.levels, a.errors + b.errors⟩

namespace HydratingObjectStore

section Recording
universe v
variable {m : Type → Type v} [Monad m] (H : HydratingObjectStore m)

def recordLevel : List ObjectId → m (List TreeRead)
  | [] => return []
  | tree :: rest => do
    let answer ← (H.readTree tree).run
    let more ← recordLevel rest
    return (tree, answer) :: more

def recordFrom : Nat → List ObjectId → List ObjectId → m (List (List TreeRead))
  | 0, _, _ => return []
  | rounds + 1, frontier, visited => do
    let reads ← H.recordLevel frontier
    let (next, visited) := sweep (answersOf reads) [] visited
    if next.isEmpty then return [reads]
    let _ ← H.fetchObjects next
    let more ← recordFrom rounds next visited
    return reads :: more

/-- `warm_tree_closure` returning what it read, level by level, in place of the counts. -/
def recordClosure (rootTree : ObjectId) : m (List (List TreeRead)) := do
  let _ ← H.fetchObjects [rootTree]
  H.recordFrom (256 ^ 20) [rootTree] [rootTree]

end Recording

theorem discover_directories (entries : List RawTreeEntry) (next visited : List ObjectId) :
    HydratingObjectStore.discover entries next visited =
      BreadthFirst.discover (directories entries) next visited := by
  induction entries generalizing next visited with
  | nil => rfl
  | cons e rest ih =>
    unfold HydratingObjectStore.discover at ih ⊢
    rw [List.foldl_cons, ih]
    unfold directories
    by_cases dir : (EntryMode.fromRaw e.modeRaw).isDir = true
    · rw [List.filter_cons_of_pos (by simpa using dir), List.map_cons, BreadthFirst.discover]
      by_cases old : e.oid ∈ visited
      · simp [dir, old]
      · simp [dir, old]
    · rw [List.filter_cons_of_neg (by simpa using dir)]
      simp [dir]

section Counting
universe v
variable {m : Type → Type v} [Monad m] [LawfulMonad m] {H : HydratingObjectStore m}

theorem add_tally_ok (stats : WarmTreeStats) (tree : ObjectId) (entries : List RawTreeEntry)
    (reads : List TreeRead) (levels : Nat) :
    stats.add (tally ((tree, .ok entries) :: reads) levels) =
      WarmTreeStats.add { stats with treesWarmed := stats.treesWarmed + 1 } (tally reads levels) := by
  simp only [WarmTreeStats.add, tally, List.filter_cons, Except.toBool, if_true, Bool.not_true,
    Bool.false_eq_true, if_false, List.length_cons, WarmTreeStats.mk.injEq, and_self, and_true]
  omega

theorem add_tally_error (stats : WarmTreeStats) (tree : ObjectId) (e : HydrateError)
    (reads : List TreeRead) (levels : Nat) :
    stats.add (tally ((tree, .error e) :: reads) levels) =
      WarmTreeStats.add { stats with errors := stats.errors + 1 } (tally reads levels) := by
  simp only [WarmTreeStats.add, tally, List.filter_cons, Except.toBool, if_true, Bool.not_false,
    Bool.false_eq_true, if_false, List.length_cons, WarmTreeStats.mk.injEq, true_and]
  omega

theorem warmLevel_eq (frontier next visited : List ObjectId) (stats : WarmTreeStats) :
    H.warmLevel frontier next visited stats = (H.recordLevel frontier >>= fun reads =>
      pure ((sweep (answersOf reads) next visited).1, (sweep (answersOf reads) next visited).2,
        stats.add (tally reads 0))) := by
  induction frontier generalizing next visited stats with
  | nil =>
    simp only [warmLevel, recordLevel, pure_bind]
    rfl
  | cons tree rest ih =>
    simp only [warmLevel, recordLevel, bind_assoc, pure_bind]
    refine bind_congr fun answer => ?_
    cases answer with
    | ok entries =>
      simp only [ih]
      refine bind_congr fun reads => ?_
      rw [add_tally_ok, discover_directories]
      rfl
    | error e =>
      simp only [ih]
      refine bind_congr fun reads => ?_
      rw [add_tally_error]
      rfl

theorem add_tally_append (stats : WarmTreeStats) (reads more : List TreeRead) (levels : Nat) :
    (WarmTreeStats.add { stats with levels := stats.levels + 1 } (tally reads 0)).add
      (tally more levels) = stats.add (tally (reads ++ more) (levels + 1)) := by
  simp only [WarmTreeStats.add, tally, List.filter_append, List.length_append,
    WarmTreeStats.mk.injEq]
  omega

theorem warmFrom_eq (rounds : Nat) (frontier visited : List ObjectId) (stats : WarmTreeStats) :
    H.warmFrom rounds frontier visited stats = (H.recordFrom rounds frontier visited >>=
      fun record => pure (stats.add (tally record.flatten record.length))) := by
  induction rounds generalizing frontier visited stats with
  | zero =>
    simp only [warmFrom, recordFrom, pure_bind]
    rfl
  | succ rounds ih =>
    simp only [warmFrom, recordFrom, warmLevel_eq, bind_assoc, pure_bind]
    refine bind_congr fun reads => ?_
    by_cases done : (sweep (answersOf reads) [] visited).1.isEmpty = true
    · simp only [done, if_true, pure_bind, List.flatten_cons, List.flatten_nil, List.append_nil,
        List.length_singleton]
      have one := add_tally_append stats reads [] 0
      rw [List.append_nil, Nat.zero_add] at one
      rw [← one]
      rfl
    · simp only [done, Bool.false_eq_true, if_false, bind_assoc, pure_bind, ih]
      refine bind_congr fun _ => bind_congr fun record => ?_
      rw [add_tally_append]
      rfl

theorem warmTreeClosure_eq (rootTree : ObjectId) :
    H.warmTreeClosure rootTree = (H.recordClosure rootTree >>= fun record =>
      pure (tally record.flatten record.length)) := by
  simp only [warmTreeClosure, recordClosure, warmFrom_eq, bind_assoc]
  refine bind_congr fun _ => bind_congr fun record => ?_
  simp [WarmTreeStats.add, WarmTreeStats.default, tally]

end Counting
end HydratingObjectStore

def Names (reads : List TreeRead) (tree oid : ObjectId) : Prop :=
  ∃ entries, (tree, .ok entries) ∈ reads ∧
    ∃ e ∈ entries, (EntryMode.fromRaw e.modeRaw).isDir = true ∧ e.oid = oid

def FetchEvent.oids : FetchEvent → List ObjectId
  | .object oid _ => [oid]
  | .batch oids _ => oids

/-- From one sound state to another: the disk has only gained objects, and the fetcher was
    asked for nothing but `wanted`. -/
structure Moves (G : Gix ω) (u : Universe ω) (wanted : ObjectId → Prop) (s t : Session ω) : Prop where
  sound : Sound G u t
  grows : u.Grows s.store.world t.store.world
  asks : ∃ events, t.log = s.log ++ events ∧
    ∀ event ∈ events, ∀ oid ∈ FetchEvent.oids event, wanted oid

def TrueRead (G : Gix ω) (u : Universe ω) (t : Session ω) (read : TreeRead) : Prop :=
  ∀ entries, read.2 = .ok entries → treeOf G read.1 (u.object read.1) = .ok entries ∧
    u.resident t.store.world read.1 = true

section Moving
variable {G : Gix ω} {u : Universe ω} {s t r : Session ω}
  {wanted more : ObjectId → Prop}

theorem mapError_eq_ok {ε ε' α : Type} {r : Except ε α} {f : ε → ε'} {a : α}
    (same : r.mapError f = .ok a) : r = .ok a := by
  cases r with
  | error e => cases same
  | ok b =>
    cases same
    rfl

theorem Moves.refl (sound : Sound G u s) (wanted : ObjectId → Prop) : Moves G u wanted s s :=
  ⟨sound, fun _ => id, [], by simp, by simp⟩

theorem Moves.trans (first : Moves G u wanted s t) (second : Moves G u wanted t r) :
    Moves G u wanted s r := by
  obtain ⟨events, log, asks⟩ := first.asks
  obtain ⟨later, log', asks'⟩ := second.asks
  refine ⟨second.sound, fun oid here => second.grows oid (first.grows oid here),
    events ++ later, by rw [log', log, List.append_assoc], ?_⟩
  intro event among
  rcases List.mem_append.mp among with before | after
  · exact asks event before
  · exact asks' event after

theorem Moves.mono (moves : Moves G u wanted s t) (allows : ∀ oid, wanted oid → more oid) :
    Moves G u more s t := by
  obtain ⟨events, log, asks⟩ := moves.asks
  exact ⟨moves.sound, moves.grows, events, log,
    fun event among oid inside => allows oid (asks event among oid inside)⟩

theorem TrueRead.later {read : TreeRead} (true_ : TrueRead G u s read)
    (grows : u.Grows s.store.world t.store.world) : TrueRead G u t read := by
  intro entries same
  obtain ⟨truth, resident⟩ := true_ entries same
  exact ⟨truth, grows read.1 resident⟩

end Moving

section Bound

def ObjectId.number (oid : ObjectId) : Nat := Nat.ofDigits 256 (oid.bytes.map UInt8.toNat)

theorem digit_lt {bytes : Bytes} {d : Nat} (among : d ∈ bytes.map UInt8.toNat) : d < 256 := by
  obtain ⟨b, -, rfl⟩ := List.mem_map.mp among
  exact b.toNat_lt

theorem number_lt (oid : ObjectId) : oid.number < 256 ^ 20 := by
  have bound := Nat.ofDigits_lt_base_pow_length (b := 256) (by decide)
    fun d (among : d ∈ oid.bytes.map UInt8.toNat) => digit_lt among
  rwa [List.length_map, oid.width] at bound

theorem number_injective {a b : ObjectId} (same : a.number = b.number) : a = b := by
  have digits : a.bytes.map UInt8.toNat = b.bytes.map UInt8.toNat :=
    Nat.ofDigits_inj_of_len_eq (by decide) (by simp [a.width, b.width]) (fun _ => digit_lt)
      (fun _ => digit_lt) same
  have bytes : a.bytes = b.bytes :=
    List.map_injective_iff.mpr (fun x y => UInt8.toNat.inj) digits
  cases a
  cases b
  cases bytes
  rfl

/-- There are no more ids than that, so the rounds of the loop suffice. -/
theorem objectIds_bounded {oids : List ObjectId} (distinct : oids.Nodup) :
    oids.length ≤ 256 ^ 20 := by
  have numbers : (oids.map ObjectId.number).Nodup :=
    distinct.map fun _ _ same => number_injective same
  have inside : oids.map ObjectId.number ⊆ List.range (256 ^ 20) := by
    intro n among
    obtain ⟨oid, -, rfl⟩ := List.mem_map.mp among
    exact List.mem_range.mpr (number_lt oid)
  simpa using numbers.length_le_of_subset inside

end Bound

section Warming
variable {G : Gix ω} {u : Universe ω} {F : Fetcher (StateM (Store ω))} {s : Session ω}

theorem readTree_moves (answers : G.Answers u) (honest : Honest G u F) (sound : Sound G u s)
    (oid : ObjectId) :
    Gives ((recording G F).readTree oid).run s fun r t =>
      Moves G u (· = oid) s t ∧ TrueRead G u t (oid, r) := by
  apply ((readTree_transparent answers honest sound oid).and
    (readTree_grows answers honest sound oid)).mono
  intro r t given
  obtain ⟨⟨soundT, transparent⟩, grows⟩ := given
  unfold Transparent at transparent
  by_cases resident : u.resident s.store.world oid = true
  · simp only [resident, if_true] at transparent
    obtain ⟨log, rfl⟩ := transparent
    refine ⟨⟨soundT, grows, [], by simp [log], by simp⟩, ?_⟩
    intro entries same
    exact ⟨mapError_eq_ok same, grows oid resident⟩
  · simp only [resident, Bool.false_eq_true, if_false] at transparent
    obtain ⟨answer, log, outcome⟩ := transparent
    refine ⟨⟨soundT, grows, [.object oid answer], log, by simp [FetchEvent.oids]⟩, ?_⟩
    intro entries same
    rcases answer with e | ⟨⟩
    · obtain rfl : r = _ := outcome
      cases same
    · obtain ⟨landed, rfl⟩ := outcome
      exact ⟨mapError_eq_ok same, landed⟩

theorem recordLevel_gives (answers : G.Answers u) (honest : Honest G u F) (sound : Sound G u s)
    (frontier : List ObjectId) :
    Gives ((recording G F).recordLevel frontier) s fun reads t =>
      reads.map Prod.fst = frontier ∧ Moves G u (· ∈ frontier) s t ∧
        ∀ read ∈ reads, TrueRead G u t read := by
  induction frontier generalizing s with
  | nil => exact ⟨rfl, .refl sound _, fun _ among => nomatch among⟩
  | cons tree rest ih =>
    unfold HydratingObjectStore.recordLevel
    rw [gives_bind]
    apply (readTree_moves answers honest sound tree).mono
    intro answer t given
    obtain ⟨first, read⟩ := given
    rw [gives_bind]
    apply (ih first.sound).mono
    intro reads r given
    obtain ⟨asked, second, others⟩ := given
    refine ⟨congrArg (tree :: ·) asked, ?_, ?_⟩
    · exact (first.mono fun oid same => by simp [show oid = tree from same]).trans
        (second.mono fun oid among => List.mem_cons_of_mem _ among)
    · intro other among
      rcases List.mem_cons.mp among with rfl | later
      · exact read.later second.grows
      · exact others other later

theorem pending_still {τ : Type} {absent : ObjectId → StateM τ Bool}
    (still : ∀ oid s, Gives (absent oid) s fun _ t => t = s) (oids : List ObjectId) (s : τ) :
    Gives (HydratingObjectStore.pending absent oids) s fun query t => query ⊆ oids ∧ t = s := by
  induction oids generalizing s with
  | nil => exact ⟨List.Subset.refl _, rfl⟩
  | cons oid rest ih =>
    unfold HydratingObjectStore.pending
    rw [gives_bind]
    apply (still oid s).mono
    intro missing t same
    subst same
    rw [gives_bind]
    apply (ih t).mono
    intro query r given
    obtain ⟨inside, rfl⟩ := given
    refine ⟨?_, rfl⟩
    cases missing with
    | true => exact List.cons_subset_cons oid inside
    | false => exact fun other among => List.mem_cons_of_mem _ (inside among)

theorem fetchObjects_moves (answers : G.Answers u) (honest : Honest G u F) (sound : Sound G u s)
    (oids : List ObjectId) :
    Gives ((recording G F).fetchObjects oids) s fun _ t => Moves G u (· ∈ oids) s t := by
  have present : ∀ oid s, Gives ((recording G F).store.contains oid) s fun _ t => t = s :=
    fun oid s => by
      apply (gives_onStore (ObjectStore.contains G oid) s _).mpr
      apply (contains_gives answers oid s.store).mono
      intro _ _ given
      rw [given.2]
  unfold HydratingObjectStore.fetchObjects
  by_cases empty : oids.isEmpty = true
  · simp only [empty, if_true]
    exact .refl sound _
  · simp only [empty, Bool.false_eq_true, if_false]
    unfold HydratingObjectStore.batch
    rw [gives_bind]
    refine Gives.mono (pending_still ?_ oids s) ?_
    · exact fun oid s => present oid s
    intro query t given
    obtain ⟨inside, rfl⟩ := given
    by_cases none : query.isEmpty = true
    · simp only [none, if_true]
      exact .refl sound _
    · simp only [none, Bool.false_eq_true, if_false]
      rw [gives_bind, gives_fetchObjects]
      apply (honest.objects query t.store).mono
      intro probes store given
      obtain ⟨extends_, all_true⟩ := given
      rw [gives_bind]
      have published := publishProbes_keeps (F := F) answers all_true (List.Subset.refl probes)
        ⟨t.log ++ [.batch query probes], store⟩ ⟨t.log ++ [.batch query probes], store⟩
        ⟨answered_of_extends sound extends_, rfl, rfl⟩
      apply published.mono
      intro _ r given
      obtain ⟨⟨soundR, -⟩, world, log⟩ := given
      refine ⟨soundR, fun oid here => world.symm ▸ extends_.grows oid here,
        [.batch query probes], log, ?_⟩
      intro event among oid asked
      obtain rfl := List.mem_singleton.mp among
      exact inside asked

theorem found_names {reads : List TreeRead} {read : TreeRead} (among : read ∈ reads)
    {oid : ObjectId} (named : oid ∈ found read.2) : Names reads read.1 oid := by
  obtain ⟨tree, e | entries⟩ := read
  · cases named
  · obtain ⟨entry, kept, rfl⟩ := List.mem_map.mp named
    obtain ⟨inside, dir⟩ := List.mem_filter.mp kept
    exact ⟨entries, among, entry, inside, dir, rfl⟩

theorem Names.mono {some_ all : List TreeRead} {tree oid : ObjectId} (inside : some_ ⊆ all)
    (names : Names some_ tree oid) : Names all tree oid := by
  obtain ⟨entries, read, named⟩ := names
  exact ⟨entries, inside read, named⟩

theorem mem_next {reads : List TreeRead} {visited : List ObjectId} {oid : ObjectId}
    (among : oid ∈ (sweep (answersOf reads) [] visited).1) : ∃ tree, Names reads tree oid := by
  rcases ((sweep_swept (answersOf reads) [] visited).mem_next oid).mp among with none_ | new
  · cases none_
  · obtain ⟨⟨answer, listed, named⟩, -⟩ := new
    obtain ⟨read, inside, rfl⟩ := List.mem_map.mp listed
    exact ⟨read.1, found_names inside named⟩

/-- The rounds from some frontier on: a record of the search, with true answers, that asks
    the fetcher for nothing but the frontier and what the answers name. -/
theorem recordFrom_gives (answers : G.Answers u) (honest : Honest G u F) (sound : Sound G u s)
    {rounds : Nat} {frontier visited : List ObjectId} (distinct : visited.Nodup)
    (enough : 256 ^ 20 < visited.length + rounds) :
    Gives ((recording G F).recordFrom rounds frontier visited) s fun record t =>
      Walk frontier visited (record.map answersOf) ∧
      Moves G u (fun oid => oid ∈ frontier ∨ ∃ tree, Names record.flatten tree oid) s t ∧
      ∀ read ∈ record.flatten, TrueRead G u t read := by
  induction rounds generalizing frontier visited s with
  | zero =>
    have bound := objectIds_bounded distinct
    omega
  | succ rounds ih =>
    unfold HydratingObjectStore.recordFrom
    rw [gives_bind]
    apply (recordLevel_gives answers honest sound frontier).mono
    intro reads t given
    obtain ⟨asked, first, trueReads⟩ := given
    have level : (answersOf reads).map Prod.fst = frontier := by
      rw [← asked]
      simp [answersOf]
    have swept := sweep_swept (answersOf reads) [] visited
    by_cases done : (sweep (answersOf reads) [] visited).1.isEmpty = true
    · simp only [done, if_true, gives_pure]
      refine ⟨.last level (List.isEmpty_iff.mp done), first.mono fun oid => Or.inl, ?_⟩
      simpa using trueReads
    · simp only [done, Bool.false_eq_true, if_false]
      have some_ : (sweep (answersOf reads) [] visited).1 ≠ [] := fun empty =>
        done (List.isEmpty_iff.mpr empty)
      have positive : 0 < (sweep (answersOf reads) [] visited).1.length :=
        List.length_pos_of_ne_nil some_
      have longer := swept.length
      rw [List.length_nil, Nat.add_zero] at longer
      rw [gives_bind]
      apply (fetchObjects_moves answers honest first.sound _).mono
      intro _ r second
      rw [gives_bind]
      apply (ih second.sound (swept.nodup_seen distinct) (by omega)).mono
      intro record v given
      obtain ⟨below, third, others⟩ := given
      have here : reads ⊆ reads ++ record.flatten := List.subset_append_left _ _
      have later : record.flatten ⊆ reads ++ record.flatten := List.subset_append_right _ _
      rw [gives_pure, List.flatten_cons]
      refine ⟨.more level some_ below, ?_, ?_⟩
      · refine ((first.mono fun oid => Or.inl).trans (second.mono ?_)).trans (third.mono ?_)
        · intro oid among
          obtain ⟨tree, names⟩ := mem_next among
          exact Or.inr ⟨tree, names.mono here⟩
        · rintro oid (among | ⟨tree, names⟩)
          · obtain ⟨tree, names⟩ := mem_next among
            exact Or.inr ⟨tree, names.mono here⟩
          · exact Or.inr ⟨tree, names.mono later⟩
      · intro read among
        rcases List.mem_append.mp among with now | deeper
        · exact (trueReads read now).later fun oid here => third.grows oid (second.grows oid here)
        · exact others read deeper

theorem recordClosure_gives (answers : G.Answers u) (honest : Honest G u F) (sound : Sound G u s)
    (rootTree : ObjectId) :
    Gives ((recording G F).recordClosure rootTree) s fun record t =>
      Walk [rootTree] [rootTree] (record.map answersOf) ∧
      Moves G u (fun oid => oid = rootTree ∨ ∃ tree, Names record.flatten tree oid) s t ∧
      ∀ read ∈ record.flatten, TrueRead G u t read := by
  unfold HydratingObjectStore.recordClosure
  rw [gives_bind]
  apply (fetchObjects_moves answers honest sound [rootTree]).mono
  intro _ t first
  have enough : 256 ^ 20 < [rootTree].length + 256 ^ 20 := by
    rw [List.length_singleton]
    exact Nat.lt_add_of_pos_left Nat.one_pos
  apply (recordFrom_gives answers honest first.sound (List.nodup_singleton rootTree) enough).mono
  intro record r given
  obtain ⟨walk, second, trueReads⟩ := given
  refine ⟨walk, ?_, trueReads⟩
  refine (first.mono fun oid among => ?_).trans (second.mono fun oid given => ?_)
  · exact Or.inl (List.mem_singleton.mp among)
  · exact given.imp_left List.mem_singleton.mp

end Warming

/-- The reads cover what they reach from the root, each tree once, and the counts count
    them. -/
structure Covers (rootTree : ObjectId) (reads : List TreeRead) (stats : WarmTreeStats) : Prop where
  once : (reads.map Prod.fst).Nodup
  reached : ∀ oid, oid ∈ reads.map Prod.fst ↔ ReflTransGen (Names reads) rootTree oid
  warmed : stats.treesWarmed = (reads.filter fun read => read.2.toBool).length
  failed : stats.errors = (reads.filter fun read => !read.2.toBool).length
  levels : ∀ k, k < stats.levels ↔ ∃ oid, AtLevel (Names reads) rootTree k oid

theorem nodes_answers (record : List (List TreeRead)) :
    nodes (record.map answersOf) = record.flatten.map Prod.fst := by
  induction record with
  | nil => rfl
  | cons reads rest ih =>
    rw [List.map_cons, nodes_cons, ih, List.flatten_cons, List.map_append]
    simp [answersOf]

theorem covers_of_walk {rootTree : ObjectId} {record : List (List TreeRead)}
    (walk : Walk [rootTree] [rootTree] (record.map answersOf)) :
    Covers rootTree record.flatten (tally record.flatten record.length) := by
  have once := (walk_nodup walk (List.nodup_singleton rootTree) fun n => id).1
  rw [nodes_answers] at once
  have answers : ∀ level ∈ record.map answersOf, ∀ answer ∈ level, ∀ oid,
      oid ∈ answer.2 ↔ Names record.flatten answer.1 oid := by
    intro level listed answer among oid
    obtain ⟨reads, there, rfl⟩ := List.mem_map.mp listed
    obtain ⟨read, inside, rfl⟩ := List.mem_map.mp among
    have flat : read ∈ record.flatten := List.mem_flatten.mpr ⟨reads, there, inside⟩
    constructor
    · exact found_names flat
    · rintro ⟨entries, other, e, member, dir, rfl⟩
      have same : read = (read.1, .ok entries) :=
        List.inj_on_of_nodup_map once flat other rfl
      rw [same]
      exact List.mem_map.mpr ⟨e, List.mem_filter.mpr ⟨member, dir⟩, rfl⟩
  refine ⟨once, fun oid => ?_, rfl, rfl, fun k => ?_⟩
  · rw [← nodes_answers]
    exact walk_reaches walk answers oid
  · rw [← walk_depth walk answers k, List.length_map]
    rfl

def Holds (G : Gix ω) (u : Universe ω) (tree oid : ObjectId) : Prop :=
  ∃ entries, treeOf G tree (u.object tree) = .ok entries ∧
    ∃ e ∈ entries, (EntryMode.fromRaw e.modeRaw).isDir = true ∧ e.oid = oid

theorem resident_of_covers {G : Gix ω} {u : Universe ω} {t : Session ω} {rootTree : ObjectId}
    {reads : List TreeRead} {stats : WarmTreeStats} (covers : Covers rootTree reads stats)
    (trueReads : ∀ read ∈ reads, TrueRead G u t read) (clean : stats.errors = 0) {oid : ObjectId}
    (below : ReflTransGen (Holds G u) rootTree oid) : u.resident t.store.world oid = true := by
  have succeeded : ∀ read ∈ reads, ∃ entries, read.2 = .ok entries := by
    intro read among
    have none_ := List.length_eq_zero_iff.mp (covers.failed.symm.trans clean)
    rw [List.filter_eq_nil_iff] at none_
    have ok := none_ read among
    rcases answer : read.2 with e | entries
    · simp [answer, Except.toBool] at ok
    · exact ⟨entries, rfl⟩
  have reached : ReflTransGen (Names reads) rootTree oid := by
    induction below with
    | refl => exact .refl
    | tail _ holds ih =>
      refine ih.tail ?_
      obtain ⟨entries, tree, named⟩ := holds
      obtain ⟨read, among, rfl⟩ := List.mem_map.mp ((covers.reached _).mpr ih)
      obtain ⟨listed, ok⟩ := succeeded read among
      have truth := (trueReads read among listed ok).1
      rw [tree] at truth
      cases truth
      exact ⟨entries, ok ▸ among, named⟩
  obtain ⟨read, among, rfl⟩ := List.mem_map.mp ((covers.reached _).mpr reached)
  obtain ⟨listed, ok⟩ := succeeded read among
  exact (trueReads read among listed ok).2

/-- In any session, with any honest fetcher and any resident set: one read for each tree
    reached, true counts, no other request, and full residency where nothing failed. -/
theorem warm_tree_closure_covers {G : Gix ω} {u : Universe ω} {F : Fetcher (StateM (Store ω))}
    (answers : G.Answers u) (honest : Honest G u F) {trees blobBytes perEntry headers : Nat}
    {w : ω} {calls : List (StoreCall ω)} {s : Session ω}
    (growing : Meets (sessionStep G F) (OnlyGrows u)
      (.new trees blobBytes perEntry headers w) calls)
    (run : exec (sessionStep G F) (.new trees blobBytes perEntry headers w) calls = some s)
    (rootTree : ObjectId) :
    Gives ((recording G F).warmTreeClosure rootTree) s fun stats t => ∃ record,
      Gives ((recording G F).recordClosure rootTree) s (fun r v => r = record ∧ v = t) ∧
      Covers rootTree record.flatten stats ∧
      (∃ events, t.log = s.log ++ events ∧ ∀ event ∈ events, ∀ oid ∈ event.oids,
        oid = rootTree ∨ ∃ tree, Names record.flatten tree oid) ∧
      (stats.errors = 0 → ∀ oid, ReflTransGen (Holds G u) rootTree oid →
        u.resident t.store.world oid = true) := by
  have sound : Sound G u s :=
    run_sound answers honest run growing (truthful_new G u _ trees blobBytes perEntry headers w)
  rw [HydratingObjectStore.warmTreeClosure_eq, gives_bind]
  have recorded := recordClosure_gives answers honest sound rootTree
  refine (recorded.and (gives_self _ s)).mono ?_
  intro record t given
  obtain ⟨⟨walk, moves, trueReads⟩, sameRecord, sameState⟩ := given
  have covers := covers_of_walk walk
  rw [gives_pure]
  exact ⟨record, ⟨sameRecord.symm, sameState.symm⟩, covers, moves.asks,
    fun clean oid below => resident_of_covers covers trueReads clean below⟩

section Sample
open ProjgitTables

/-- One subtree under two names. -/
def sharedTables : Tables where
  commits := []
  trees := [(fixtureId 2, [⟨ascii "a", 0o040000, fixtureId 3⟩, ⟨ascii "b", 0o040000, fixtureId 3⟩]),
    (fixtureId 3, [])]
  blobs := []

def sharedSession : Session World := .new 4 64 64 4 ⟨[fixtureId 2, fixtureId 3], []⟩

theorem shared_subtree_warmed :
    Gives ((recording sharedTables.gix sharedTables.remote).warmTreeClosure (fixtureId 2))
      sharedSession fun stats t => stats = ⟨2, 2, 0⟩ ∧
        ∀ oid, ReflTransGen (Holds sharedTables.gix sharedTables.objects) (fixtureId 2) oid →
          sharedTables.objects.resident t.store.world oid = true := by
  have counted : (((recording sharedTables.gix sharedTables.remote).warmTreeClosure
      (fixtureId 2)).run sharedSession).1 = ⟨2, 2, 0⟩ := by decide +kernel
  have calm : Meets (sessionStep sharedTables.gix sharedTables.remote)
      (OnlyGrows sharedTables.objects) (.new 4 64 64 4 ⟨[fixtureId 2, fixtureId 3], []⟩) [] := trivial
  have started : exec (sessionStep sharedTables.gix sharedTables.remote)
      (.new 4 64 64 4 ⟨[fixtureId 2, fixtureId 3], []⟩) [] = some sharedSession := rfl
  obtain ⟨record, -, -, -, resident⟩ := warm_tree_closure_covers sharedTables.answers
    sharedTables.remote_honest calm started (fixtureId 2)
  exact ⟨counted, resident (by rw [counted])⟩

end Sample
end ProjgitStore

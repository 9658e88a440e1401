import Mathlib.Data.List.AList
import Projgit.Lib.Recency
import Projgit.Lib.Runs
import Projgit.Caches

/-!
The tree and the header cache against the map they stand for: a list of cached pairs,
most recently used first. The cache keeps two maps and a counter instead; the list is
recovered from them through `RecencyIndex.Indexed`.
-/
namespace ProjgitCaches
open RecencyIndex LabelledRuns
variable {K P : Type} [DecidableEq K]

inductive Call (K P : Type) where
  | get (key : K)
  | put (key : K) (payload : P)

def Lru.serve (c : Lru K P) : Call K P → Option P × Lru K P
  | .get key => c.get key
  | .put key payload => (none, c.put key payload)

def idealGet (key : K) (recent : List (K × P)) : Option P × List (K × P) :=
  match recent.find? fun item => item.1 = key with
  | none => (none, recent)
  | some item => (some item.2, item :: recent.filter fun other => other.1 ≠ key)

/-- At capacity the last pair, the least recently used one, makes room. -/
def idealPut (capacity : Nat) (key : K) (payload : P) (recent : List (K × P)) :
    List (K × P) :=
  if capacity = 0 then recent
  else if key ∈ recent.map Prod.fst then
    (key, payload) :: recent.filter fun other => other.1 ≠ key
  else if recent.length < capacity then (key, payload) :: recent
  else (key, payload) :: recent.dropLast

def idealServe (capacity : Nat) (recent : List (K × P)) :
    Call K P → Option P × List (K × P)
  | .get key => idealGet key recent
  | .put key payload => (none, idealPut capacity key payload recent)

/-- `order` and `entries` index each other, by generations that were all handed out. -/
structure OneToOne (entries : AList fun _ : K => Entry P) (order : AList fun _ : Nat => K)
    (nextGen : Nat) : Prop where
  linked : ∀ gen key,
    order.lookup gen = some key ↔ ∃ e, entries.lookup key = some e ∧ e.generation = gen
  distinct : ∀ key e other e', entries.lookup key = some e → entries.lookup other = some e' →
    e.generation = e'.generation → key = other
  issued : ∀ key e, entries.lookup key = some e → e.generation ≤ nextGen
  same_size : order.keys.length = entries.keys.length

variable {entries : AList fun _ : K => Entry P} {order : AList fun _ : Nat => K}
  {nextGen : Nat} {items : List (K × Entry P)}

theorem one_to_one_of_indexed (index : Indexed Entry.generation entries order nextGen items) :
    OneToOne entries order nextGen where
  linked := by
    intro gen key
    rw [index.back]
    simp only [index.found]
  distinct := by
    intro key e other e' one two same
    exact index.stamp_unique ((index.found key e).mp one) ((index.found other e').mp two) same
  issued := fun key e found => index.issued (key, e) ((index.found key e).mp found)
  same_size := by rw [index.order_size, index.size]

theorem oldest_indexed (index : Indexed Entry.generation entries order nextGen items) :
    oldest order = items.head?.map fun item => (item.2.generation, item.1) := by
  unfold oldest
  rw [index.least]
  cases items with
  | nil => rfl
  | cons first rest => simp [index.least_key]

def newestFirst (items : List (K × Entry P)) : List (K × P) :=
  (items.map fun item => (item.1, item.2.payload)).reverse

omit [DecidableEq K] in
theorem newest_first_append (items : List (K × Entry P)) (key : K) (e : Entry P) :
    newestFirst (items ++ [(key, e)]) = (key, e.payload) :: newestFirst items := by
  simp [newestFirst]

theorem newest_first_without (items : List (K × Entry P)) (key : K) :
    newestFirst (items.filter fun item => item.1 ≠ key) =
      (newestFirst items).filter fun other => other.1 ≠ key := by
  simp [newestFirst, List.filter_map, List.filter_reverse, Function.comp_def]

omit [DecidableEq K] in
theorem mem_newest_first (items : List (K × Entry P)) (key : K) (payload : P) :
    (key, payload) ∈ newestFirst items ↔ ∃ e, (key, e) ∈ items ∧ e.payload = payload := by
  simp [newestFirst]

omit [DecidableEq K] in
theorem newest_first_keys (items : List (K × Entry P)) (key : K) :
    key ∈ (newestFirst items).map Prod.fst ↔ ∃ e, (key, e) ∈ items := by
  simp [newestFirst]

structure Tracks (c : Lru K P) (items : List (K × Entry P)) : Prop where
  indexed : Indexed Entry.generation c.entries c.order c.nextGen items
  within : items.length ≤ c.capacity
  ticks : c.nextGen = c.hits + c.inserts
  evicted : c.evictions + items.length ≤ c.inserts

theorem tracks_empty (capacity : Nat) :
    Tracks (Lru.withCapacity capacity : Lru K P) [] :=
  ⟨Indexed.empty _ _, Nat.zero_le _, rfl, Nat.zero_le _⟩

variable {c : Lru K P}

theorem ideal_get_found (index : Indexed Entry.generation entries order nextGen items)
    {key : K} {e : Entry P} (found : entries.lookup key = some e) :
    idealGet key (newestFirst items) = (some e.payload,
      (key, e.payload) :: (newestFirst items).filter fun other => other.1 ≠ key) := by
  have member := (index.found key e).mp found
  have hit : (newestFirst items).find? (fun item => item.1 = key) =
      some (key, e.payload) := by
    cases search : (newestFirst items).find? fun item => item.1 = key with
    | none =>
      have missed := List.find?_eq_none.mp search (key, e.payload)
        ((mem_newest_first items key e.payload).mpr ⟨e, member, rfl⟩)
      exact absurd (decide_eq_true rfl) missed
    | some item =>
      obtain ⟨other, payload⟩ := item
      have matched := List.find?_some search
      obtain rfl : other = key := of_decide_eq_true matched
      obtain ⟨e', member', rfl⟩ :=
        (mem_newest_first items other payload).mp (List.mem_of_find?_eq_some search)
      rw [index.key_unique member' member]
  simp only [idealGet, hit]

theorem ideal_get_absent (index : Indexed Entry.generation entries order nextGen items)
    {key : K} (absent : entries.lookup key = none) :
    idealGet key (newestFirst items) = (none, newestFirst items) := by
  have missed : (newestFirst items).find? (fun item => item.1 = key) = none := by
    rw [List.find?_eq_none]
    rintro ⟨other, payload⟩ member same
    obtain rfl : other = key := of_decide_eq_true same
    obtain ⟨e, stored, -⟩ := (mem_newest_first items other payload).mp member
    exact index.absent.mp absent e stored
  simp only [idealGet, missed]

theorem without_length (index : Indexed Entry.generation entries order nextGen items)
    {key : K} {e : Entry P} (member : (key, e) ∈ items) :
    (items.filter fun item => item.1 ≠ key).length + 1 = items.length :=
  (index.without_perm member).length_eq.symm

theorem get_tracks (tracks : Tracks c items) (key : K) :
    ∃ items', Tracks (c.get key).2 items' ∧
      idealGet key (newestFirst items) = ((c.get key).1, newestFirst items') := by
  cases found : c.entries.lookup key with
  | none =>
    refine ⟨items, ?_, ?_⟩
    · simpa only [Lru.get, found] using tracks
    · simpa only [Lru.get, found] using ideal_get_absent tracks.indexed found
  | some e =>
    have member := (tracks.indexed.found key e).mp found
    have shorter := without_length tracks.indexed member
    refine ⟨(items.filter fun item => item.1 ≠ key) ++ [(key, ⟨e.payload, c.nextGen + 1⟩)],
      ⟨?_, ?_, ?_, ?_⟩, ?_⟩
    · simpa only [Lru.get, found] using tracks.indexed.promote member rfl
    · have within := tracks.within
      simp only [Lru.get, found, List.length_append, List.length_singleton]
      omega
    · have ticks := tracks.ticks
      simp only [Lru.get, found]
      omega
    · have evicted := tracks.evicted
      simp only [Lru.get, found, List.length_append, List.length_singleton]
      omega
    · rw [ideal_get_found tracks.indexed found, newest_first_append, newest_first_without]
      simp only [Lru.get, found]

theorem evict_full_room (room : c.entries.keys.length < c.capacity) (fuel : Nat) :
    c.evictFull fuel = c := by
  cases fuel with
  | zero => rfl
  | succ fuel => rw [Lru.evictFull, if_pos room]

theorem evict_full_tracks (tracks : Tracks c items) (positive : c.capacity ≠ 0) :
    Tracks (c.evictFull c.order.keys.length)
        (if items.length < c.capacity then items else items.tail) ∧
      (c.evictFull c.order.keys.length).capacity = c.capacity := by
  by_cases room : items.length < c.capacity
  · rw [if_pos room, evict_full_room (by rwa [tracks.indexed.size])]
    exact ⟨tracks, rfl⟩
  · rw [if_neg room, tracks.indexed.order_size]
    have within := tracks.within
    cases items with
    | nil =>
      simp only [List.length_nil] at room
      omega
    | cons first rest =>
      obtain ⟨key, e⟩ := first
      have size := tracks.indexed.size
      simp only [List.length_cons] at room within size
      have step : c.evictFull ((key, e) :: rest).length =
          ({ c with
              order := c.order.erase e.generation
              entries := c.entries.erase key
              evictions := c.evictions + 1 } : Lru K P).evictFull rest.length := by
        rw [List.length_cons, Lru.evictFull, if_neg (by omega), oldest_indexed tracks.indexed]
        rfl
      have dropped := tracks.indexed.dropOldest
      rw [step, evict_full_room (by simp only [dropped.size]; omega)]
      have evicted := tracks.evicted
      simp only [List.length_cons] at evicted
      refine ⟨⟨dropped, ?_, tracks.ticks, ?_⟩, rfl⟩
      · simp only [List.tail_cons]
        omega
      · simp only [List.tail_cons]
        omega

omit [DecidableEq K] in
theorem newest_first_tail (items : List (K × Entry P)) :
    newestFirst items.tail = (newestFirst items).dropLast := by
  simp [newestFirst, List.dropLast_reverse, List.map_tail]

theorem put_present (tracks : Tracks c items) (positive : c.capacity ≠ 0) {key : K}
    {e : Entry P} (found : c.entries.lookup key = some e) (payload : P) :
    ∃ items', Tracks (c.put key payload) items' ∧
      newestFirst items' =
        (key, payload) :: (newestFirst items).filter fun other => other.1 ≠ key := by
  have member := (tracks.indexed.found key e).mp found
  have shorter := without_length tracks.indexed member
  refine ⟨(items.filter fun item => item.1 ≠ key) ++ [(key, ⟨payload, c.nextGen + 1⟩)],
    ⟨?_, ?_, ?_, ?_⟩, ?_⟩
  · simpa only [Lru.put, positive, found, if_false] using tracks.indexed.promote member rfl
  · have within := tracks.within
    simp only [Lru.put, positive, found, if_false, List.length_append, List.length_singleton]
    omega
  · have ticks := tracks.ticks
    simp only [Lru.put, positive, found, if_false]
    omega
  · have evicted := tracks.evicted
    simp only [Lru.put, positive, found, if_false, List.length_append, List.length_singleton]
    omega
  · rw [newest_first_append, newest_first_without]

theorem put_absent (tracks : Tracks c items) (positive : c.capacity ≠ 0) {key : K}
    (missing : c.entries.lookup key = none) (payload : P) :
    ∃ items', Tracks (c.put key payload) items' ∧
      newestFirst items' = (key, payload) ::
        (if items.length < c.capacity then newestFirst items
          else (newestFirst items).dropLast) := by
  obtain ⟨kept, same⟩ := evict_full_tracks tracks positive
  generalize hkept : (if items.length < c.capacity then items else items.tail) = left at kept
  have absent : ∀ e, (key, e) ∉ left := by
    intro e member
    refine tracks.indexed.absent.mp missing e ?_
    rw [← hkept] at member
    split at member
    · exact member
    · exact List.mem_of_mem_tail member
  have room : left.length < c.capacity := by
    rw [← hkept]
    split
    · assumption
    · have within := tracks.within
      rw [List.length_tail]
      omega
  have put_eq : c.put key payload =
      { c.evictFull c.order.keys.length with
        nextGen := (c.evictFull c.order.keys.length).nextGen + 1
        order := (c.evictFull c.order.keys.length).order.insert
          ((c.evictFull c.order.keys.length).nextGen + 1) key
        entries := (c.evictFull c.order.keys.length).entries.insert key
          ⟨payload, (c.evictFull c.order.keys.length).nextGen + 1⟩
        inserts := (c.evictFull c.order.keys.length).inserts + 1 } := by
    simp only [Lru.put, positive, missing, if_false]
  rw [put_eq]
  generalize c.evictFull c.order.keys.length = d at kept same
  refine ⟨left ++ [(key, ⟨payload, d.nextGen + 1⟩)],
    ⟨kept.indexed.insert absent rfl, ?_, ?_, ?_⟩, ?_⟩
  · simp only [List.length_append, List.length_singleton]
    omega
  · have ticks := kept.ticks
    simp only
    omega
  · have evicted := kept.evicted
    simp only [List.length_append, List.length_singleton]
    omega
  · rw [newest_first_append, ← hkept]
    split
    · rfl
    · rw [newest_first_tail]

theorem put_tracks (tracks : Tracks c items) (key : K) (payload : P) :
    ∃ items', Tracks (c.put key payload) items' ∧
      newestFirst items' = idealPut c.capacity key payload (newestFirst items) := by
  by_cases off : c.capacity = 0
  · refine ⟨items, ?_, ?_⟩
    · simpa only [Lru.put, off, if_true] using tracks
    · simp only [idealPut, off, if_true]
  · have size : (newestFirst items).length = items.length := by simp [newestFirst]
    cases found : c.entries.lookup key with
    | some e =>
      obtain ⟨items', tracks', same⟩ := put_present tracks off found payload
      have present : key ∈ (newestFirst items).map Prod.fst :=
        (newest_first_keys items key).mpr ⟨e, (tracks.indexed.found key e).mp found⟩
      exact ⟨items', tracks', by rw [same, idealPut, if_neg off, if_pos present]⟩
    | none =>
      obtain ⟨items', tracks', same⟩ := put_absent tracks off found payload
      have absent : key ∉ (newestFirst items).map Prod.fst := by
        rw [newest_first_keys]
        rintro ⟨e, member⟩
        exact tracks.indexed.absent.mp found e member
      refine ⟨items', tracks', ?_⟩
      rw [same, idealPut, if_neg off, if_neg absent, size]
      split <;> rfl

theorem evict_full_counts (fuel : Nat) (c : Lru K P) :
    (c.evictFull fuel).capacity = c.capacity ∧
      (c.evictFull fuel).hits = c.hits ∧ (c.evictFull fuel).inserts = c.inserts := by
  induction fuel generalizing c with
  | zero => exact ⟨rfl, rfl, rfl⟩
  | succ fuel ih =>
    unfold Lru.evictFull
    split
    · exact ⟨rfl, rfl, rfl⟩
    · split
      · exact ⟨rfl, rfl, rfl⟩
      · exact ih _

theorem serve_counts (c : Lru K P) (call : Call K P) :
    (c.serve call).2.capacity = c.capacity ∧
      (c.serve call).2.hits + (c.serve call).2.inserts ≤ c.hits + c.inserts + 1 := by
  cases call with
  | get key =>
    cases found : c.entries.lookup key with
    | none => simp [Lru.serve, Lru.get, found]
    | some e => exact ⟨by simp [Lru.serve, Lru.get, found],
        by simp [Lru.serve, Lru.get, found]; omega⟩
  | put key payload =>
    by_cases off : c.capacity = 0
    · simp [Lru.serve, Lru.put, off]
    · cases found : c.entries.lookup key with
      | some e => simp [Lru.serve, Lru.put, off, found, Nat.add_assoc]
      | none =>
        obtain ⟨capacity, hits, inserts⟩ := evict_full_counts c.order.keys.length c
        simp [Lru.serve, Lru.put, off, found, capacity, hits, inserts, Nat.add_assoc]

theorem calls_counted (c : Lru K P) (calls : List (Call K P)) :
    (answers Lru.serve c calls).2.capacity = c.capacity ∧
      (answers Lru.serve c calls).2.hits + (answers Lru.serve c calls).2.inserts ≤
        c.hits + c.inserts + calls.length := by
  induction calls generalizing c with
  | nil => exact ⟨rfl, Nat.le_refl _⟩
  | cons call rest ih =>
    obtain ⟨capacity, counted⟩ := serve_counts c call
    obtain ⟨later, counted'⟩ := ih (c.serve call).2
    refine ⟨later.trans capacity, ?_⟩
    simp only [answers, List.length_cons]
    omega

/-- The simulation: the cache tracks exactly the pairs the ideal map holds. -/
def Simulates (capacity : Nat) (c : Lru K P) (recent : List (K × P)) : Prop :=
  c.capacity = capacity ∧ ∃ items, Tracks c items ∧ recent = newestFirst items

theorem serve_simulates {capacity : Nat} {recent : List (K × P)}
    (related : Simulates capacity c recent) (call : Call K P) :
    (c.serve call).1 = (idealServe capacity recent call).1 ∧
      Simulates capacity (c.serve call).2 (idealServe capacity recent call).2 := by
  obtain ⟨rfl, items, tracks, rfl⟩ := related
  have capacity := (serve_counts c call).1
  cases call with
  | get key =>
    obtain ⟨items', tracks', same⟩ := get_tracks tracks key
    have ideal : idealServe c.capacity (newestFirst items) (.get key) =
        ((c.get key).1, newestFirst items') := same
    rw [ideal]
    exact ⟨rfl, capacity, items', tracks', rfl⟩
  | put key payload =>
    obtain ⟨items', tracks', same⟩ := put_tracks tracks key payload
    exact ⟨rfl, capacity, items', tracks', same.symm⟩

/-- Every sequence of calls is answered as the ideal map answers it. Generations and
    counters are bounded by the number of calls, so fewer than `2 ^ 64` calls never
    exhaust a `u64`. -/
theorem cache_is_lru (capacity : Nat) (calls : List (Call K P)) :
    let run := answers Lru.serve (Lru.withCapacity capacity : Lru K P) calls
    let ideal := answers (idealServe capacity) [] calls
    run.1 = ideal.1 ∧
      (∀ key payload, (∃ e, run.2.entries.lookup key = some e ∧ e.payload = payload) ↔
        (key, payload) ∈ ideal.2) ∧
      run.2.entries.keys.length = ideal.2.length ∧
      OneToOne run.2.entries run.2.order run.2.nextGen ∧
      run.2.entries.keys.length ≤ capacity ∧
      run.2.nextGen ≤ calls.length ∧ run.2.nextGen = run.2.hits + run.2.inserts ∧
      run.2.evictions ≤ run.2.inserts := by
  intro run ideal
  have start : Simulates capacity (Lru.withCapacity capacity : Lru K P) [] :=
    ⟨rfl, [], tracks_empty capacity, rfl⟩
  obtain ⟨replies, same, items, tracks, kept⟩ :=
    answers_agree (Simulates capacity) (fun _ _ call related => serve_simulates related call)
      start calls
  have counted : run.2.hits + run.2.inserts ≤ 0 + 0 + calls.length :=
    (calls_counted (Lru.withCapacity capacity : Lru K P) calls).2
  have size : run.2.entries.keys.length = items.length := tracks.indexed.size
  have ticks : run.2.nextGen = run.2.hits + run.2.inserts := tracks.ticks
  have evicted := Nat.le_trans (Nat.le_add_right _ _) tracks.evicted
  refine ⟨replies, ?_, ?_, one_to_one_of_indexed tracks.indexed, ?_, ?_, ticks, evicted⟩
  · intro key payload
    have listed := mem_newest_first items key payload
    rw [← kept] at listed
    rw [listed]
    exact exists_congr fun e => and_congr_left' (tracks.indexed.found key e)
  · rw [size]
    simp [ideal, kept, newestFirst]
  · rw [size, ← same]
    exact tracks.within
  · rw [ticks]
    omega

example : (answers Lru.serve (Lru.withCapacity 2 : Lru Nat Nat)
    [.put 1 10, .put 2 20, .get 1, .put 3 30, .get 2, .get 1]).1 =
      [none, none, some 10, none, none, some 10] := by decide

end ProjgitCaches

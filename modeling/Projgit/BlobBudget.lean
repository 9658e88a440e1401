import Mathlib.Data.List.AList
import Mathlib.Algebra.BigOperators.Group.List.Basic
import Mathlib.Algebra.GroupWithZero.Nat
import Mathlib.Data.List.Induction
import Projgit.Lib.Recency
import Projgit.Lib.Runs
import Projgit.LruCaches

/-!
Byte accounting of the blob cache. `bytes_used` is kept by hand next to the two maps;
along every run of calls it is the sum of what is cached. Eviction drops the oldest
entries one at a time until the new payload fits; the path that replaces a cached
payload does not evict at all.
-/
namespace ProjgitCaches
open RecencyIndex LabelledRuns Utf8Bytes
variable {K : Type} [DecidableEq K]

def BlobCache.serve (c : BlobCache K) : Call K Bytes → Option Bytes × BlobCache K
  | .get key => c.get key
  | .put key payload => (none, c.put key payload)

/-- The cached pairs in the order of `order.iter()`, least recently used first. -/
def BlobCache.oldestFirst (c : BlobCache K) : List (K × Bytes) :=
  (c.order.keys.mergeSort (· ≤ ·)).filterMap fun gen =>
    (c.order.lookup gen).bind fun key =>
      (c.entries.lookup key).map fun e => (key, e.payload)

/-- The key that a call uses. A payload that is not admitted uses none. -/
def Call.use (capacity perEntry : Nat) : Call K Bytes → Option K
  | .get key => some key
  | .put key payload => if capacity = 0 ∨ perEntry < payload.length then none else some key

def bytesOf (cached : List (K × Bytes)) : Nat := (cached.map fun pair => pair.2.length).sum

structure Accounted (c : BlobCache K) : Prop where
  bytes : c.bytesUsed = ((pairs c.entries).map fun cached => cached.2.payload.length).sum
  covered : ∀ key e, c.entries.lookup key = some e → e.payload.length ≤ c.bytesUsed
  one_to_one : OneToOne c.entries c.order c.nextGen

def itemBytes (items : List (K × Entry Bytes)) : Nat :=
  (items.map fun item => item.2.payload.length).sum

structure Accounts (c : BlobCache K) (items : List (K × Entry Bytes)) : Prop where
  indexed : Indexed Entry.generation c.entries c.order c.nextGen items
  bytes : c.bytesUsed = itemBytes items

variable {c : BlobCache K} {items : List (K × Entry Bytes)} {key : K} {e : Entry Bytes}

theorem accounts_empty (capacity perEntry : Nat) :
    Accounts (BlobCache.new capacity perEntry : BlobCache K) [] :=
  ⟨Indexed.empty _ _, rfl⟩

omit [DecidableEq K] in
theorem item_bytes_append (items : List (K × Entry Bytes)) (key : K) (e : Entry Bytes) :
    itemBytes (items ++ [(key, e)]) = itemBytes items + e.payload.length := by
  simp [itemBytes]

theorem Accounts.without_bytes (accounts : Accounts c items) (member : (key, e) ∈ items) :
    c.bytesUsed =
      e.payload.length + itemBytes (items.filter fun item => item.1 ≠ key) := by
  have perm := (accounts.indexed.without_perm member).map fun item => item.2.payload.length
  rw [accounts.bytes, itemBytes, perm.sum_eq]
  rfl

theorem Accounts.accounted (accounts : Accounts c items) : Accounted c where
  bytes := by
    have perm := accounts.indexed.entries_perm.map fun item => item.2.payload.length
    rw [accounts.bytes, itemBytes, perm.sum_eq]
  covered := by
    intro key e found
    rw [accounts.without_bytes ((accounts.indexed.found key e).mp found)]
    exact Nat.le_add_right _ _
  one_to_one := one_to_one_of_indexed accounts.indexed

theorem Accounts.oldest_first (accounts : Accounts c items) :
    c.oldestFirst = items.map fun item => (item.1, item.2.payload) := by
  have read : ∀ item ∈ items, ((c.order.lookup item.2.generation).bind fun key =>
      (c.entries.lookup key).map fun e => (key, e.payload)) = some (item.1, item.2.payload) := by
    rintro ⟨key, e⟩ member
    rw [(accounts.indexed.back _ key).mpr ⟨e, member, rfl⟩, Option.bind_some,
      (accounts.indexed.found key e).mpr member, Option.map_some]
  rw [BlobCache.oldestFirst, accounts.indexed.sorted, List.filterMap_map]
  refine (List.filterMap_congr read).trans ?_
  rw [← List.filterMap_eq_map]
  rfl

omit [DecidableEq K] in
theorem bytes_of_items (items : List (K × Entry Bytes)) :
    bytesOf (items.map fun item => (item.1, item.2.payload)) = itemBytes items := by
  simp [bytesOf, itemBytes, Function.comp_def]

theorem Accounts.promote (accounts : Accounts c items) (member : (key, e) ∈ items)
    (payload : Bytes) {d : BlobCache K}
    (entries : d.entries = c.entries.insert key ⟨payload, c.nextGen + 1⟩)
    (order : d.order = (c.order.erase e.generation).insert (c.nextGen + 1) key)
    (next : d.nextGen = c.nextGen + 1)
    (bytes : d.bytesUsed = c.bytesUsed - e.payload.length + payload.length) :
    Accounts d ((items.filter fun item => item.1 ≠ key) ++
      [(key, ⟨payload, c.nextGen + 1⟩)]) where
  indexed := by
    rw [entries, order, next]
    exact accounts.indexed.promote member rfl
  bytes := by
    have total := accounts.without_bytes member
    rw [bytes, item_bytes_append]
    simp only
    omega

def keysOf (items : List (K × Entry Bytes)) : List K := items.map Prod.fst

theorem keys_restamped (items : List (K × Entry Bytes)) (key : K) (e : Entry Bytes) :
    keysOf ((items.filter fun item => item.1 ≠ key) ++ [(key, e)]) =
      ((keysOf items).filter fun other => other ≠ key) ++ [key] := by
  simp [keysOf, List.filter_map, Function.comp_def]

theorem Accounts.missing (accounts : Accounts c items) (absent : c.entries.lookup key = none) :
    key ∉ keysOf items := by
  intro member
  obtain ⟨⟨_, e⟩, listed, rfl⟩ := List.mem_map.mp member
  exact accounts.indexed.absent.mp absent e listed

/-- What was cached in the order of last use still is, after one more use. -/
def Recalls (items items' : List (K × Entry Bytes)) (use : Option K) : Prop :=
  ∀ uses : List K, (keysOf items).Sublist uses.dedup →
    (keysOf items').Sublist (uses ++ use.toList).dedup

theorem get_accounts (accounts : Accounts c items) (key : K) :
    ∃ items', Accounts (c.get key).2 items' ∧ Recalls items items' (some key) := by
  cases found : c.entries.lookup key with
  | none =>
    refine ⟨items, ?_, fun uses recent => use_missed recent (accounts.missing found)⟩
    simpa only [BlobCache.get, found] using accounts
  | some e =>
    have member := (accounts.indexed.found key e).mp found
    have total := accounts.without_bytes member
    refine ⟨_, accounts.promote member e.payload ?_ ?_ ?_ ?_, fun uses recent => ?_⟩
    · simp only [BlobCache.get, found]
    · simp only [BlobCache.get, found]
    · simp only [BlobCache.get, found]
    · simp only [BlobCache.get, found]
      omega
    · rw [keys_restamped]
      exact use_kept recent key

theorem Accounts.drop_oldest {rest : List (K × Entry Bytes)}
    (accounts : Accounts c ((key, e) :: rest)) (evictions : Nat) :
    Accounts { c with
      order := c.order.erase e.generation
      entries := c.entries.erase key
      bytesUsed := c.bytesUsed - e.payload.length
      evictions := evictions } rest where
  indexed := accounts.indexed.dropOldest
  bytes := by
    have bytes := accounts.bytes
    simp only [itemBytes, List.map_cons, List.sum_cons] at bytes ⊢
    omega

/-- Where the eviction loop stands after at most `fuel` rounds: it has dropped the oldest
    `n` entries, none of these rounds started with the payload fitting, and it stops once
    the payload fits, the cache is empty or the rounds are used up. -/
structure Evicted (c : BlobCache K) (items : List (K × Entry Bytes)) (len fuel : Nat)
    (after : BlobCache K × Bool) (n : Nat) : Prop where
  accounts : Accounts after.1 (items.drop n)
  needed : ∀ m < n, c.capacityBytes < itemBytes (items.drop m) + len
  fits : after.2 = true → itemBytes (items.drop n) + len ≤ c.capacityBytes
  gave_up : after.2 = false →
    c.capacityBytes < itemBytes (items.drop n) + len ∧ (items.length ≤ n ∨ fuel ≤ n)
  frame : after.1.capacityBytes = c.capacityBytes ∧
    after.1.perEntryMaxBytes = c.perEntryMaxBytes

theorem evicted_now (accounts : Accounts c items) (len fuel : Nat) {d : BlobCache K} {ok : Bool}
    (same : Accounts d items) (frame : d.capacityBytes = c.capacityBytes ∧
      d.perEntryMaxBytes = c.perEntryMaxBytes)
    (fits : ok = true → c.bytesUsed + len ≤ c.capacityBytes)
    (gave_up : ok = false → c.capacityBytes < c.bytesUsed + len ∧ (items = [] ∨ fuel = 0)) :
    Evicted c items len fuel (d, ok) 0 where
  accounts := same
  needed := fun m below => absurd below (Nat.not_lt_zero m)
  fits := fun yes => by
    rw [List.drop_zero, ← accounts.bytes]
    exact fits yes
  gave_up := fun no => by
    rw [List.drop_zero, ← accounts.bytes]
    refine ⟨(gave_up no).1, (gave_up no).2.imp ?_ Nat.le_of_eq⟩
    rintro rfl
    exact Nat.le_refl _
  frame := frame

theorem evict_room {len : Nat} (room : c.bytesUsed + len ≤ c.capacityBytes) (fuel : Nat) :
    c.evictUntilFits len fuel = (c, true) := by
  unfold BlobCache.evictUntilFits
  rw [if_pos room]

theorem evict_stuck {len fuel : Nat} (full : ¬ c.bytesUsed + len ≤ c.capacityBytes)
    (stuck : fuel = 0 ∨ oldest c.order = none) :
    c.evictUntilFits len fuel = ({ c with skippedTooLarge := c.skippedTooLarge + 1 }, false) := by
  unfold BlobCache.evictUntilFits
  rw [if_neg full]
  split
  · rename_i found
    rcases stuck with none_left | empty
    · exact absurd none_left (Nat.succ_ne_zero _)
    · rw [empty] at found
      cases found
  · rfl

theorem evict_round {len : Nat} (full : ¬ c.bytesUsed + len ≤ c.capacityBytes)
    (first : oldest c.order = some (e.generation, key))
    (found : c.entries.lookup key = some e) (fuel : Nat) :
    c.evictUntilFits len (fuel + 1) =
      ({ c with
          order := c.order.erase e.generation
          entries := c.entries.erase key
          bytesUsed := c.bytesUsed - e.payload.length
          evictions := c.evictions + 1 } : BlobCache K).evictUntilFits len fuel := by
  simp only [BlobCache.evictUntilFits.eq_def len (fuel + 1) c, full, if_false, first, found]

theorem evict_until_fits (accounts : Accounts c items) (len fuel : Nat) :
    ∃ n, Evicted c items len fuel (c.evictUntilFits len fuel) n := by
  induction fuel generalizing c items with
  | zero =>
    refine ⟨0, ?_⟩
    by_cases room : c.bytesUsed + len ≤ c.capacityBytes
    · rw [evict_room room]
      exact evicted_now accounts len 0 accounts ⟨rfl, rfl⟩ (fun _ => room) (by simp)
    · rw [evict_stuck room (Or.inl rfl)]
      exact evicted_now accounts len 0 ⟨accounts.indexed, accounts.bytes⟩ ⟨rfl, rfl⟩ (by simp)
        fun _ => ⟨Nat.lt_of_not_le room, Or.inr rfl⟩
  | succ fuel ih =>
    by_cases room : c.bytesUsed + len ≤ c.capacityBytes
    · refine ⟨0, ?_⟩
      rw [evict_room room]
      exact evicted_now accounts len _ accounts ⟨rfl, rfl⟩ (fun _ => room) (by simp)
    · have first := oldest_indexed accounts.indexed
      cases items with
      | nil =>
        refine ⟨0, ?_⟩
        rw [evict_stuck room (Or.inr first)]
        exact evicted_now accounts len _ ⟨accounts.indexed, accounts.bytes⟩ ⟨rfl, rfl⟩ (by simp)
          fun _ => ⟨Nat.lt_of_not_le room, Or.inl rfl⟩
      | cons item rest =>
        obtain ⟨key, e⟩ := item
        have found := (accounts.indexed.found key e).mpr List.mem_cons_self
        obtain ⟨n, evicted⟩ := ih (accounts.drop_oldest (c.evictions + 1))
        rw [evict_round room first found]
        refine ⟨n + 1, evicted.accounts, ?_, evicted.fits, ?_, evicted.frame⟩
        · intro m below
          cases m with
          | zero =>
            rw [List.drop_zero, ← accounts.bytes]
            exact Nat.lt_of_not_le room
          | succ m => exact evicted.needed m (Nat.lt_of_succ_lt_succ below)
        · intro no
          obtain ⟨full, done⟩ := evicted.gave_up no
          exact ⟨full, done.imp Nat.succ_le_succ Nat.succ_le_succ⟩

/-- The rounds of `put` are enough: when it gives up the cache is empty and the payload
    alone exceeds the capacity. -/
theorem Evicted.empty_of_gave_up {len n : Nat} {after : BlobCache K × Bool}
    (evicted : Evicted c items len items.length after n) (no : after.2 = false) :
    items.drop n = [] ∧ c.capacityBytes < len := by
  obtain ⟨full, done⟩ := evicted.gave_up no
  have empty : items.drop n = [] := List.drop_eq_nil_of_le (done.elim id id)
  rw [empty] at full
  refine ⟨empty, ?_⟩
  simpa [itemBytes] using full

theorem put_skips {payload : Bytes}
    (skip : c.capacityBytes = 0 ∨ c.perEntryMaxBytes < payload.length) :
    ∃ skipped, c.put key payload = { c with skippedTooLarge := skipped } := by
  by_cases off : c.capacityBytes = 0
  · exact ⟨c.skippedTooLarge, by rw [BlobCache.put, if_pos off]⟩
  · refine ⟨c.skippedTooLarge + 1, ?_⟩
    rw [BlobCache.put, if_neg off, if_pos (skip.resolve_left off)]

theorem put_replaces (accounts : Accounts c items) {payload : Bytes}
    (on : c.capacityBytes ≠ 0) (small : payload.length ≤ c.perEntryMaxBytes)
    (found : c.entries.lookup key = some e) :
    Accounts (c.put key payload) ((items.filter fun item => item.1 ≠ key) ++
        [(key, ⟨payload, c.nextGen + 1⟩)]) ∧
      (c.put key payload).bytesUsed = c.bytesUsed - e.payload.length + payload.length := by
  have member := (accounts.indexed.found key e).mp found
  have put_eq : c.put key payload = { c with
      nextGen := c.nextGen + 1
      order := (c.order.erase e.generation).insert (c.nextGen + 1) key
      entries := c.entries.insert key ⟨payload, c.nextGen + 1⟩
      bytesUsed := c.bytesUsed - e.payload.length + payload.length
      inserts := c.inserts + 1 } := by
    rw [BlobCache.put, if_neg on, if_neg (Nat.not_lt.mpr small)]
    simp only [found]
  rw [put_eq]
  exact ⟨accounts.promote member payload rfl rfl rfl rfl, rfl⟩

def BlobCache.store (key : K) (payload : Bytes) (c : BlobCache K) : BlobCache K :=
  { c with
    nextGen := c.nextGen + 1
    order := c.order.insert (c.nextGen + 1) key
    entries := c.entries.insert key ⟨payload, c.nextGen + 1⟩
    bytesUsed := c.bytesUsed + payload.length
    inserts := c.inserts + 1 }

theorem put_after_loop {payload : Bytes} (on : c.capacityBytes ≠ 0)
    (small : payload.length ≤ c.perEntryMaxBytes) (absent : c.entries.lookup key = none) :
    c.put key payload =
      let after := c.evictUntilFits payload.length c.order.keys.length
      if after.2 then after.1.store key payload else after.1 := by
  rw [BlobCache.put, if_neg on, if_neg (Nat.not_lt.mpr small)]
  simp only [absent]
  generalize c.evictUntilFits payload.length c.order.keys.length = after
  obtain ⟨d, ok⟩ := after
  cases ok with
  | false => rfl
  | true => rfl

/-- A new key: the loop evicts, and unless it gave up the payload is appended as the
    newest entry. -/
theorem put_new (accounts : Accounts c items) {payload : Bytes}
    (on : c.capacityBytes ≠ 0) (small : payload.length ≤ c.perEntryMaxBytes)
    (absent : c.entries.lookup key = none) :
    ∃ n, Evicted c items payload.length items.length
        (c.evictUntilFits payload.length c.order.keys.length) n ∧
      ((c.evictUntilFits payload.length c.order.keys.length).2 = false →
        Accounts (c.put key payload) [] ∧ (c.put key payload).entries.lookup key = none) ∧
      ((c.evictUntilFits payload.length c.order.keys.length).2 = true → ∃ gen,
        Accounts (c.put key payload) (items.drop n ++ [(key, ⟨payload, gen⟩)])) ∧
      (c.put key payload).capacityBytes = c.capacityBytes ∧
      (c.put key payload).perEntryMaxBytes = c.perEntryMaxBytes := by
  obtain ⟨n, evicted⟩ := evict_until_fits accounts payload.length items.length
  rw [put_after_loop on small absent, accounts.indexed.order_size]
  have fresh : ∀ e, (key, e) ∉ items.drop n := fun e member =>
    accounts.indexed.absent.mp absent e (List.mem_of_mem_drop member)
  generalize c.evictUntilFits payload.length items.length = after at evicted
  obtain ⟨d, ok⟩ := after
  refine ⟨n, evicted, ?_, ?_, ?_⟩
  · rintro ⟨⟩
    obtain ⟨empty, -⟩ := evicted.empty_of_gave_up rfl
    have kept := evicted.accounts
    rw [empty] at kept
    exact ⟨kept, kept.indexed.absent.mpr (by simp)⟩
  · rintro ⟨⟩
    refine ⟨d.nextGen + 1, evicted.accounts.indexed.insert fresh rfl, ?_⟩
    rw [item_bytes_append, ← evicted.accounts.bytes]
    rfl
  · cases ok with
    | false => exact evicted.frame
    | true => exact evicted.frame

def Sound (capacity perEntry : Nat) (c : BlobCache K) : Prop :=
  c.capacityBytes = capacity ∧ c.perEntryMaxBytes = perEntry ∧ ∃ items, Accounts c items

theorem put_accounts (accounts : Accounts c items) (key : K) (payload : Bytes) :
    ∃ items', Accounts (c.put key payload) items' ∧
      (c.put key payload).capacityBytes = c.capacityBytes ∧
      (c.put key payload).perEntryMaxBytes = c.perEntryMaxBytes ∧
      Recalls items items' (Call.use c.capacityBytes c.perEntryMaxBytes (.put key payload)) := by
  by_cases skip : c.capacityBytes = 0 ∨ c.perEntryMaxBytes < payload.length
  · obtain ⟨skipped, same⟩ :
        ∃ skipped, c.put key payload = { c with skippedTooLarge := skipped } :=
      put_skips skip
    rw [same, Call.use, if_pos skip]
    refine ⟨items, ⟨accounts.indexed, accounts.bytes⟩, rfl, rfl, fun uses recent => ?_⟩
    rwa [Option.toList_none, List.append_nil]
  · rw [Call.use, if_neg skip]
    rw [not_or, Nat.not_lt] at skip
    cases found : c.entries.lookup key with
    | some e =>
      refine ⟨_, (put_replaces accounts skip.1 skip.2 found).1, ?_, ?_, fun uses recent => ?_⟩
      · simp only [BlobCache.put, skip.1, Nat.not_lt.mpr skip.2, found, if_false]
      · simp only [BlobCache.put, skip.1, Nat.not_lt.mpr skip.2, found, if_false]
      · rw [keys_restamped]
        exact use_kept recent key
    | none =>
      obtain ⟨n, -, gave_up, stored, frame⟩ := put_new accounts skip.1 skip.2 found
      cases done : (c.evictUntilFits payload.length c.order.keys.length).2 with
      | false => exact ⟨[], (gave_up done).1, frame.1, frame.2, fun _ _ => List.nil_sublist _⟩
      | true =>
        obtain ⟨gen, accounts'⟩ := stored done
        refine ⟨_, accounts', frame.1, frame.2, fun uses recent => ?_⟩
        -- The oldest are gone, and what is left did not have the key.
        have older : (keysOf (items.drop n)).Sublist (keysOf items) :=
          (List.drop_sublist n items).map _
        have fresh : key ∉ keysOf (items.drop n) := fun member =>
          accounts.missing found (older.subset member)
        have again := use_kept (older.trans recent) key
        rw [filter_missing fresh] at again
        rw [keysOf, List.map_append]
        exact again

theorem serve_accounts (accounts : Accounts c items) (call : Call K Bytes) :
    ∃ items', Accounts (c.serve call).2 items' ∧
      (c.serve call).2.capacityBytes = c.capacityBytes ∧
      (c.serve call).2.perEntryMaxBytes = c.perEntryMaxBytes ∧
      Recalls items items' (call.use c.capacityBytes c.perEntryMaxBytes) := by
  cases call with
  | get key =>
    obtain ⟨items', accounts', recalls⟩ := get_accounts accounts key
    refine ⟨items', accounts', ?_, ?_, recalls⟩
    · cases found : c.entries.lookup key <;> simp only [BlobCache.serve, BlobCache.get, found]
    · cases found : c.entries.lookup key <;> simp only [BlobCache.serve, BlobCache.get, found]
  | put key payload => exact put_accounts accounts key payload

theorem serve_sound {capacity perEntry : Nat} (sound : Sound capacity perEntry c)
    (call : Call K Bytes) : Sound capacity perEntry (c.serve call).2 := by
  obtain ⟨rfl, rfl, items, accounts⟩ := sound
  obtain ⟨items', accounts', capacity, perEntry, -⟩ := serve_accounts accounts call
  exact ⟨capacity, perEntry, items', accounts'⟩

/-- The state that a history of calls leads to: what is cached is in the order of last use. -/
structure Remembers (capacity perEntry : Nat) (calls : List (Call K Bytes)) (c : BlobCache K)
    (items : List (K × Entry Bytes)) : Prop where
  accounts : Accounts c items
  budget : c.capacityBytes = capacity
  cap : c.perEntryMaxBytes = perEntry
  recent : (keysOf items).Sublist (calls.filterMap (Call.use capacity perEntry)).dedup

theorem calls_remembered (capacity perEntry : Nat) (calls : List (Call K Bytes)) :
    ∃ items, Remembers capacity perEntry calls
      (answers BlobCache.serve (BlobCache.new capacity perEntry : BlobCache K) calls).2 items := by
  induction calls using List.reverseRecOn with
  | nil => exact ⟨[], accounts_empty capacity perEntry, rfl, rfl, List.nil_sublist _⟩
  | append_singleton calls call ih =>
    obtain ⟨items, accounts, budget, cap, recent⟩ := ih
    rw [answers_snoc]
    obtain ⟨items', accounts', budget', cap', recalls⟩ := serve_accounts accounts call
    refine ⟨items', accounts', budget'.trans budget, cap'.trans cap, ?_⟩
    rw [budget, cap] at recalls
    have later := recalls _ recent
    have uses : [call].filterMap (Call.use capacity perEntry) =
        (call.use capacity perEntry).toList := by
      cases used : call.use capacity perEntry <;> simp [used]
    rwa [List.filterMap_append, uses]

theorem Remembers.oldest_first {capacity perEntry : Nat} {calls : List (Call K Bytes)}
    (remembers : Remembers capacity perEntry calls c items) :
    c.oldestFirst = (calls.filterMap (Call.use capacity perEntry)).dedup.filterMap fun key =>
      (c.entries.lookup key).map fun e => (key, e.payload) := by
  have accounts := remembers.accounts
  have gone : ∀ key, key ∉ keysOf items → c.entries.lookup key = none := by
    intro key missing
    refine accounts.indexed.absent.mpr fun e member => missing ?_
    exact List.mem_map.mpr ⟨_, member, rfl⟩
  rw [filterMap_kept remembers.recent (List.nodup_dedup _)
    fun key _ missing => by rw [gone key missing, Option.map_none]]
  rw [accounts.oldest_first, keysOf, List.filterMap_map, ← List.filterMap_eq_map]
  refine List.filterMap_congr ?_
  rintro ⟨key, e⟩ member
  simp [(accounts.indexed.found key e).mpr member]

/-- A payload that is stored under a new key evicted the shortest run of oldest entries
    whose removal makes it fit. -/
theorem stored_evicts_shortest (accounts : Accounts c items) {payload : Bytes}
    (absent : c.entries.lookup key = none)
    (stored : ((c.put key payload).entries.lookup key).isSome) :
    ∃ n, (c.put key payload).oldestFirst = c.oldestFirst.drop n ++ [(key, payload)] ∧
      bytesOf (c.oldestFirst.drop n) + payload.length ≤ c.capacityBytes ∧
      ∀ m < n, c.capacityBytes < bytesOf (c.oldestFirst.drop m) + payload.length := by
  by_cases skip : c.capacityBytes = 0 ∨ c.perEntryMaxBytes < payload.length
  · obtain ⟨skipped, same⟩ :
        ∃ skipped, c.put key payload = { c with skippedTooLarge := skipped } :=
      put_skips skip
    rw [same] at stored
    simp only [absent, Option.isSome_none, Bool.false_eq_true] at stored
  · rw [not_or, Nat.not_lt] at skip
    obtain ⟨n, evicted, gave_up, kept, -⟩ := put_new accounts skip.1 skip.2 absent
    cases done : (c.evictUntilFits payload.length c.order.keys.length).2 with
    | false =>
      rw [(gave_up done).2] at stored
      simp only [Option.isSome_none, Bool.false_eq_true] at stored
    | true =>
      obtain ⟨gen, accounts'⟩ := kept done
      simp only [accounts'.oldest_first, accounts.oldest_first, ← List.map_drop, bytes_of_items]
      exact ⟨n, by simp, evicted.fits done, evicted.needed⟩

/-- With every admissible payload within the capacity, the loop always makes room. -/
theorem never_gives_up (accounts : Accounts c items) {len : Nat}
    (small : len ≤ c.capacityBytes) :
    (c.evictUntilFits len c.order.keys.length).2 = true := by
  rw [accounts.indexed.order_size]
  obtain ⟨n, evicted⟩ := evict_until_fits accounts len items.length
  cases done : (c.evictUntilFits len items.length).2 with
  | true => rfl
  | false =>
    have large := (evicted.empty_of_gave_up done).2
    omega

theorem get_after_put (accounts : Accounts c items) {payload : Bytes}
    (on : c.capacityBytes ≠ 0) (limits : c.perEntryMaxBytes ≤ c.capacityBytes)
    (small : payload.length ≤ c.perEntryMaxBytes) :
    ((c.put key payload).get key).1 = some payload := by
  have newest : ∃ gen kept, Accounts (c.put key payload) (kept ++ [(key, ⟨payload, gen⟩)]) := by
    cases found : c.entries.lookup key with
    | some e => exact ⟨_, _, (put_replaces accounts on small found).1⟩
    | none =>
      obtain ⟨n, -, -, stored, -⟩ := put_new accounts on small found
      obtain ⟨gen, accounts'⟩ := stored (never_gives_up accounts (by omega))
      exact ⟨gen, _, accounts'⟩
  obtain ⟨gen, kept, accounts'⟩ := newest
  rw [BlobCache.get_value, (accounts'.indexed.found key ⟨payload, gen⟩).mpr (by simp),
    Option.map_some]

/-- Accounting, eviction and retention along every sequence of calls. The second part is
    about the states inside the eviction loop, after any number of its rounds; the third about
    the order in which it evicts, which is that of the last uses in the history. -/
theorem blob_cache_accounting (capacity perEntry : Nat) (calls : List (Call K Bytes)) :
    let c := (answers BlobCache.serve (BlobCache.new capacity perEntry : BlobCache K) calls).2
    Accounted c ∧
      (∀ len rounds, Accounted (c.evictUntilFits len rounds).1) ∧
      (c.oldestFirst = (calls.filterMap (Call.use capacity perEntry)).dedup.filterMap fun key =>
        (c.entries.lookup key).map fun e => (key, e.payload)) ∧
      (∀ key payload, c.entries.lookup key = none →
        ((c.put key payload).entries.lookup key).isSome →
        ∃ n, (c.put key payload).oldestFirst = c.oldestFirst.drop n ++ [(key, payload)] ∧
          bytesOf (c.oldestFirst.drop n) + payload.length ≤ capacity ∧
          ∀ m < n, capacity < bytesOf (c.oldestFirst.drop m) + payload.length) ∧
      (0 < capacity → perEntry ≤ capacity → ∀ key payload, payload.length ≤ perEntry →
        (c.evictUntilFits payload.length c.order.keys.length).2 = true ∧
          ((c.put key payload).get key).1 = some payload) := by
  intro c
  obtain ⟨items, remembers⟩ : ∃ items, Remembers capacity perEntry calls c items :=
    calls_remembered capacity perEntry calls
  clear_value c
  have order := remembers.oldest_first
  obtain ⟨accounts, rfl, rfl, -⟩ := remembers
  refine ⟨accounts.accounted, ?_, order, ?_, ?_⟩
  · intro len rounds
    obtain ⟨n, evicted⟩ := evict_until_fits accounts len rounds
    exact evicted.accounts.accounted
  · intro key payload absent stored
    exact stored_evicts_shortest accounts absent stored
  · intro on limits key payload small
    exact ⟨never_gives_up accounts (Nat.le_trans small limits),
      get_after_put accounts (Nat.ne_of_gt on) limits small⟩

/-- A `get` saves the older of two payloads. -/
theorem promoted_blob_stays :
    let calls : List (Call Nat Bytes) := [.put 1 (List.replicate 5 0),
      .put 2 (List.replicate 5 0), .get 1, .put 3 (List.replicate 5 0)]
    let c := (answers BlobCache.serve (BlobCache.new 10 10 : BlobCache Nat) calls).2
    c.oldestFirst = [(1, List.replicate 5 0), (3, List.replicate 5 0)] := by
  intro calls c
  rw [(blob_cache_accounting 10 10 calls).2.2.1]
  decide

/-- A `put` that replaces a cached payload leaves the rest of the cache as it is, so the
    budget is met only if the new payload fits next to the rest. -/
def ReplacementFits (c : BlobCache K) : Call K Bytes → Prop
  | .get _ => True
  | .put key payload => ∀ e, c.capacityBytes ≠ 0 → payload.length ≤ c.perEntryMaxBytes →
      c.entries.lookup key = some e →
      c.bytesUsed - e.payload.length + payload.length ≤ c.capacityBytes

def blobStep (c : BlobCache K) (call : Call K Bytes) : Option (BlobCache K) :=
  some (c.serve call).2

theorem get_bytes (c : BlobCache K) (key : K) : (c.get key).2.bytesUsed = c.bytesUsed := by
  cases found : c.entries.lookup key <;> simp only [BlobCache.get, found]

theorem serve_within_budget (accounts : Accounts c items)
    (within : c.bytesUsed ≤ c.capacityBytes) (call : Call K Bytes) :
    (c.serve call).2.bytesUsed ≤ c.capacityBytes ↔ ReplacementFits c call := by
  cases call with
  | get key => simp only [BlobCache.serve, get_bytes, within, ReplacementFits]
  | put key payload =>
    simp only [BlobCache.serve, ReplacementFits]
    by_cases skip : c.capacityBytes = 0 ∨ c.perEntryMaxBytes < payload.length
    · obtain ⟨skipped, same⟩ :
          ∃ skipped, c.put key payload = { c with skippedTooLarge := skipped } :=
        put_skips skip
      rw [same]
      refine iff_of_true within ?_
      intro e on small
      omega
    · rw [not_or, Nat.not_lt] at skip
      cases found : c.entries.lookup key with
      | some e =>
        rw [(put_replaces accounts skip.1 skip.2 found).2]
        simp [skip.1, skip.2]
      | none =>
        refine iff_of_true ?_ (by simp)
        obtain ⟨n, evicted, gave_up, stored, -⟩ := put_new accounts skip.1 skip.2 found
        cases done : (c.evictUntilFits payload.length c.order.keys.length).2 with
        | false =>
          rw [(gave_up done).1.bytes]
          exact Nat.zero_le _
        | true =>
          obtain ⟨gen, accounts'⟩ := stored done
          rw [accounts'.bytes, item_bytes_append]
          exact evicted.fits done

theorem budget_iff {capacity perEntry : Nat} (sound : Sound capacity perEntry c)
    (within : c.bytesUsed ≤ capacity) (calls : List (Call K Bytes)) :
    Along blobStep (fun c => c.bytesUsed ≤ capacity) c calls ↔
      Meets blobStep ReplacementFits c calls := by
  induction calls generalizing c with
  | nil => exact iff_of_true within trivial
  | cons call rest ih =>
    have next := serve_sound sound call
    obtain ⟨rfl, -, items, accounts⟩ := sound
    have step := serve_within_budget accounts within call
    simp only [Along, Meets, blobStep, Option.some.injEq, forall_eq']
    constructor
    · rintro ⟨-, later⟩
      have fits := along_start later
      exact ⟨step.mp fits, (ih next fits).mp later⟩
    · rintro ⟨fits, later⟩
      exact ⟨within, (ih next (step.mpr fits)).mpr later⟩

/-- The byte budget holds after every call exactly when no replacing `put` outgrows it. -/
theorem budget_honoured_iff (capacity perEntry : Nat) (calls : List (Call K Bytes)) :
    Along blobStep (fun c => c.bytesUsed ≤ capacity)
        (BlobCache.new capacity perEntry : BlobCache K) calls ↔
      Meets blobStep ReplacementFits (BlobCache.new capacity perEntry : BlobCache K) calls :=
  budget_iff ⟨rfl, rfl, [], accounts_empty capacity perEntry⟩ (Nat.zero_le _) calls

/-- Two payloads fill a budget of ten bytes, then the first is replaced by a longer one. -/
theorem budget_exceeded :
    let calls : List (Call Nat Bytes) := [.put 1 (List.replicate 5 0),
      .put 2 (List.replicate 5 0), .put 1 (List.replicate 10 0)]
    ¬ Along blobStep (fun c => c.bytesUsed ≤ 10) (BlobCache.new 10 10 : BlobCache Nat) calls ∧
      (answers BlobCache.serve (BlobCache.new 10 10 : BlobCache Nat) calls).2.bytesUsed = 15 := by
  refine ⟨?_, by decide⟩
  rintro ⟨-, along⟩
  obtain ⟨-, along⟩ := along _ rfl
  obtain ⟨-, along⟩ := along _ rfl
  exact absurd (along_start (along _ rfl)) (by decide)

end ProjgitCaches

import Mathlib.Data.List.AList
import Projgit.Lib.Utf8

/-!
The three object caches (`tree_cache.rs`, `header_cache.rs`, `blob_cache.rs`) as
their locked `Inner` states. Recency is a generation counter with a reverse index;
`order` is the `BTreeMap` whose smallest key is the least recently used entry. The
tree and the header cache differ only in their payload, the blob cache is bounded by
bytes. Counters are unbounded `Nat`.
-/
namespace ProjgitCaches
open Utf8Bytes
variable {K P : Type} [DecidableEq K]

structure Entry (P : Type) where
  payload : P
  generation : Nat

/-- `Inner` of the tree cache and of the header cache. -/
structure Lru (K P : Type) where
  capacity : Nat
  nextGen : Nat
  entries : AList (fun _ : K => Entry P)
  order : AList (fun _ : Nat => K)
  hits : Nat
  misses : Nat
  inserts : Nat
  evictions : Nat

def Lru.withCapacity (capacity : Nat) : Lru K P := ⟨capacity, 0, ∅, ∅, 0, 0, 0, 0⟩

/-- `order.iter().next()`. -/
def oldest (order : AList (fun _ : Nat => K)) : Option (Nat × K) :=
  order.keys.min?.bind fun gen => (order.lookup gen).map fun key => (gen, key)

def Lru.get (key : K) (c : Lru K P) : Option P × Lru K P :=
  match c.entries.lookup key with
  | none => (none, c)
  | some e =>
    let gen := c.nextGen + 1
    (some e.payload,
      { c with
        nextGen := gen
        order := (c.order.erase e.generation).insert gen key
        entries := c.entries.insert key ⟨e.payload, gen⟩
        hits := c.hits + 1 })

/-- `while entries.len() >= capacity`. Each round takes an entry out of `order`, so its
    size bounds the rounds; with `order` empty the loop breaks. -/
def Lru.evictFull : Nat → Lru K P → Lru K P
  | 0, c => c
  | fuel + 1, c =>
    if c.entries.keys.length < c.capacity then c
    else match oldest c.order with
      | none => c
      | some (gen, key) =>
        Lru.evictFull fuel
          { c with
            order := c.order.erase gen
            entries := c.entries.erase key
            evictions := c.evictions + 1 }

def Lru.put (key : K) (payload : P) (c : Lru K P) : Lru K P :=
  if c.capacity = 0 then c
  else match c.entries.lookup key with
    | some e =>
      let gen := c.nextGen + 1
      { c with
        nextGen := gen
        order := (c.order.erase e.generation).insert gen key
        entries := c.entries.insert key ⟨payload, gen⟩
        inserts := c.inserts + 1 }
    | none =>
      let c := c.evictFull c.order.keys.length
      let gen := c.nextGen + 1
      { c with
        nextGen := gen
        order := c.order.insert gen key
        entries := c.entries.insert key ⟨payload, gen⟩
        inserts := c.inserts + 1 }

def Lru.recordMiss (c : Lru K P) : Lru K P := { c with misses := c.misses + 1 }

/-- `Inner` of the blob cache. -/
structure BlobCache (K : Type) where
  capacityBytes : Nat
  perEntryMaxBytes : Nat
  bytesUsed : Nat
  nextGen : Nat
  entries : AList (fun _ : K => Entry Bytes)
  order : AList (fun _ : Nat => K)
  hits : Nat
  misses : Nat
  inserts : Nat
  evictions : Nat
  skippedTooLarge : Nat

def BlobCache.new (capacityBytes perEntryMaxBytes : Nat) : BlobCache K :=
  ⟨capacityBytes, perEntryMaxBytes, 0, 0, ∅, ∅, 0, 0, 0, 0, 0⟩

def BlobCache.get (key : K) (c : BlobCache K) : Option Bytes × BlobCache K :=
  match c.entries.lookup key with
  | none => (none, c)
  | some e =>
    let gen := c.nextGen + 1
    (some e.payload,
      { c with
        nextGen := gen
        order := (c.order.erase e.generation).insert gen key
        entries := c.entries.insert key ⟨e.payload, gen⟩
        hits := c.hits + 1 })

/-- `while bytes_used + payload_len > capacity_bytes`; `false` is the give-up branch. -/
def BlobCache.evictUntilFits (len : Nat) : Nat → BlobCache K → BlobCache K × Bool
  | fuel, c =>
    if c.bytesUsed + len ≤ c.capacityBytes then (c, true)
    else match fuel, oldest c.order with
      | fuel + 1, some (gen, key) =>
        let dropped := { c with order := c.order.erase gen }
        BlobCache.evictUntilFits len fuel <|
          match c.entries.lookup key with
          | none => dropped
          | some removed =>
            { dropped with
              entries := c.entries.erase key
              bytesUsed := c.bytesUsed - removed.payload.length
              evictions := c.evictions + 1 }
      | _, _ => ({ c with skippedTooLarge := c.skippedTooLarge + 1 }, false)

def BlobCache.put (key : K) (payload : Bytes) (c : BlobCache K) : BlobCache K :=
  if c.capacityBytes = 0 then c
  else if payload.length > c.perEntryMaxBytes then
    { c with skippedTooLarge := c.skippedTooLarge + 1 }
  else match c.entries.lookup key with
    | some e =>
      let gen := c.nextGen + 1
      { c with
        nextGen := gen
        order := (c.order.erase e.generation).insert gen key
        entries := c.entries.insert key ⟨payload, gen⟩
        bytesUsed := c.bytesUsed - e.payload.length + payload.length
        inserts := c.inserts + 1 }
    | none =>
      match c.evictUntilFits payload.length c.order.keys.length with
      | (c, false) => c
      | (c, true) =>
        let gen := c.nextGen + 1
        { c with
          nextGen := gen
          order := c.order.insert gen key
          entries := c.entries.insert key ⟨payload, gen⟩
          bytesUsed := c.bytesUsed + payload.length
          inserts := c.inserts + 1 }

def BlobCache.recordMiss (c : BlobCache K) : BlobCache K := { c with misses := c.misses + 1 }

def Cached (entries : AList (fun _ : K => Entry P)) (good : K → P → Prop) : Prop :=
  ∀ key e, entries.lookup key = some e → good key e.payload

theorem cached_empty (good : K → P → Prop) : Cached ∅ good := by
  intro key e found
  simp at found

theorem cached_insert {entries : AList (fun _ : K => Entry P)} {good : K → P → Prop}
    (cached : Cached entries good) {key : K} {e : Entry P} (fresh : good key e.payload) :
    Cached (entries.insert key e) good := by
  intro other e' found
  by_cases same : other = key
  · subst same
    rw [AList.lookup_insert, Option.some.injEq] at found
    exact found ▸ fresh
  · rw [AList.lookup_insert_ne same] at found
    exact cached other e' found

theorem cached_erase {entries : AList (fun _ : K => Entry P)} {good : K → P → Prop}
    (cached : Cached entries good) (key : K) : Cached (entries.erase key) good := by
  intro other e found
  by_cases same : other = key
  · subst same
    simp at found
  · rw [AList.lookup_erase_ne same] at found
    exact cached other e found

theorem Lru.get_value (key : K) (c : Lru K P) :
    (c.get key).1 = (c.entries.lookup key).map Entry.payload := by
  cases found : c.entries.lookup key <;> simp [Lru.get, found]

theorem Lru.get_cached {c : Lru K P} {good : K → P → Prop} (cached : Cached c.entries good)
    (key : K) : Cached (c.get key).2.entries good := by
  cases found : c.entries.lookup key with
  | none => simpa [Lru.get, found] using cached
  | some e =>
    simp only [Lru.get, found]
    exact cached_insert cached (cached key e found)

theorem Lru.evictFull_cached {c : Lru K P} {good : K → P → Prop}
    (cached : Cached c.entries good) (fuel : Nat) : Cached (c.evictFull fuel).entries good := by
  induction fuel generalizing c with
  | zero => exact cached
  | succ fuel ih =>
    unfold Lru.evictFull
    split
    · exact cached
    · split
      · exact cached
      · exact ih (cached_erase cached _)

theorem Lru.put_cached {c : Lru K P} {good : K → P → Prop} (cached : Cached c.entries good)
    {key : K} {payload : P} (fresh : good key payload) :
    Cached (c.put key payload).entries good := by
  unfold Lru.put
  split
  · exact cached
  · split
    · exact cached_insert cached fresh
    · exact cached_insert (Lru.evictFull_cached cached _) fresh

theorem BlobCache.get_value (key : K) (c : BlobCache K) :
    (c.get key).1 = (c.entries.lookup key).map Entry.payload := by
  cases found : c.entries.lookup key <;> simp [BlobCache.get, found]

theorem BlobCache.get_cached {c : BlobCache K} {good : K → Bytes → Prop}
    (cached : Cached c.entries good) (key : K) : Cached (c.get key).2.entries good := by
  cases found : c.entries.lookup key with
  | none => simpa [BlobCache.get, found] using cached
  | some e =>
    simp only [BlobCache.get, found]
    exact cached_insert cached (cached key e found)

theorem BlobCache.evictUntilFits_cached {c : BlobCache K} {good : K → Bytes → Prop}
    (cached : Cached c.entries good) (len fuel : Nat) :
    Cached (c.evictUntilFits len fuel).1.entries good := by
  induction fuel generalizing c with
  | zero =>
    unfold BlobCache.evictUntilFits
    split <;> exact cached
  | succ fuel ih =>
    unfold BlobCache.evictUntilFits
    split
    · exact cached
    · split
      · rename_i same _
        cases same
        apply ih
        split
        · exact cached
        · exact cached_erase cached _
      · exact cached

theorem BlobCache.put_cached {c : BlobCache K} {good : K → Bytes → Prop}
    (cached : Cached c.entries good) {key : K} {payload : Bytes} (fresh : good key payload) :
    Cached (c.put key payload).entries good := by
  unfold BlobCache.put
  split
  · exact cached
  · split
    · exact cached
    · split
      · exact cached_insert cached fresh
      · have kept := BlobCache.evictUntilFits_cached cached payload.length c.order.keys.length
        split
        · rename_i evicted
          rw [evicted] at kept
          exact kept
        · rename_i evicted
          rw [evicted] at kept
          exact cached_insert kept fresh

end ProjgitCaches

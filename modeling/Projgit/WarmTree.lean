import Mathlib.Algebra.Group.Nat.Defs
import Projgit.Fetcher
import Projgit.Projection

/-!
`HydratingObjectStore::warm_tree_closure` (`fetcher.rs`): a breadth-first walk over the
trees below a root, one batch fetch a level.
-/
namespace ProjgitStore
open Utf8Bytes ProjgitProjection

structure WarmTreeStats where
  treesWarmed : Nat
  levels : Nat
  errors : Nat
  deriving DecidableEq

def WarmTreeStats.default : WarmTreeStats := ⟨0, 0, 0⟩

universe v
variable {m : Type → Type v} [Monad m]

namespace HydratingObjectStore
variable (H : HydratingObjectStore m)

/-- The directories of one tree that no earlier tree named: `next` and `visited` after it. -/
def discover (entries : List RawTreeEntry) (next visited : List ObjectId) :
    List ObjectId × List ObjectId :=
  entries.foldl (fun (next, visited) e =>
    if (EntryMode.fromRaw e.modeRaw).isDir ∧ e.oid ∉ visited then
      (next ++ [e.oid], e.oid :: visited)
    else (next, visited)) (next, visited)

/-- One level: read every tree of the frontier. -/
def warmLevel : List ObjectId → List ObjectId → List ObjectId → WarmTreeStats →
    m (List ObjectId × List ObjectId × WarmTreeStats)
  | [], next, visited, stats => return (next, visited, stats)
  | tree :: rest, next, visited, stats => do
    match ← (H.readTree tree).run with
    | .ok entries =>
      let (next, visited) := discover entries next visited
      warmLevel rest next visited { stats with treesWarmed := stats.treesWarmed + 1 }
    | .error _ => warmLevel rest next visited { stats with errors := stats.errors + 1 }

/-- `while !frontier.is_empty()`. Every round but the last puts a new id into `visited`, so
    the number of ids bounds the rounds. -/
def warmFrom : Nat → List ObjectId → List ObjectId → WarmTreeStats → m WarmTreeStats
  | 0, _, _, stats => return stats
  | rounds + 1, frontier, visited, stats => do
    let (next, visited, stats) ←
      H.warmLevel frontier [] visited { stats with levels := stats.levels + 1 }
    if next.isEmpty then return stats
    let _ ← H.fetchObjects next
    warmFrom rounds next visited stats

def warmTreeClosure (rootTree : ObjectId) : m WarmTreeStats := do
  let _ ← H.fetchObjects [rootTree]
  H.warmFrom (256 ^ 20) [rootTree] [rootTree] .default

end HydratingObjectStore
end ProjgitStore

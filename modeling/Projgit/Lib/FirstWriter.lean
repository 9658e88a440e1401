import Mathlib.Data.List.Basic

/- A table that keeps, for each key, the first value written under it. A table is
   given by the values written so far, in order; the key is a function of the value. -/
namespace FirstWriter
universe u v
variable {K : Type u} {V : Type v} [DecidableEq K] (key : V → K)

def holder (log : List V) (k : K) : Option V := log.find? fun v => decide (key v = k)

theorem holder_append (log later : List V) (k : K) :
    holder key (log ++ later) k = (holder key log k).or (holder key later k) :=
  List.find?_append

theorem holder_single (v : V) (k : K) :
    holder key [v] k = if key v = k then some v else none := by
  by_cases same : key v = k <;> simp [holder, same]

variable {log : List V} {k : K} {v : V}

theorem holder_of_mem (member : v ∈ log) : ∃ w, holder key log (key v) = some w := by
  cases held : holder key log (key v) with
  | some w => exact ⟨w, rfl⟩
  | none =>
    have differs := List.find?_eq_none.mp held v member
    simp at differs

variable {key}

theorem holder_key (held : holder key log k = some v) : key v = k := by
  simpa using List.find?_some held

theorem holder_mem (held : holder key log k = some v) : v ∈ log :=
  List.mem_of_find?_eq_some held

theorem holder_stable (held : holder key log k = some v) (later : List V) :
    holder key (log ++ later) k = some v := by
  rw [holder_append, held, Option.some_or]

theorem holder_self (apart : ∀ w ∈ log, key w = key v → w = v) (member : v ∈ log) :
    holder key log (key v) = some v := by
  obtain ⟨w, held⟩ := holder_of_mem key member
  rw [held, apart w (holder_mem held) (holder_key held)]

end FirstWriter

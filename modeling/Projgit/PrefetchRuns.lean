import Projgit.PrefetchQueue
import Mathlib.Algebra.BigOperators.Group.List.Basic

/-!
What the prefetch queue does over whole runs: tasks are taken in the order in which they were
accepted and every id of them is asked for once, the statistics add up, and dropping the handle
drains the queue.
-/
namespace ProjgitPrefetch
open ProjgitStore ProjgitFs LabelledRuns Interleave

inductive Deed where
  | accepted (task : PrefetchTask)
  | refused (task : PrefetchTask)
  | taken (task : PrefetchTask)
  | asked (chunk : List ObjectId)
  | weighed (chunk : List ObjectId)
  | fetched (keep : List ObjectId)

variable {σ ε : Type}

/-- What a step of a thread sets about. That the store is called so is `run_called`, of the same
    queue over a store that logs its calls. -/
def deed (s : Prefetch σ) : Action ε → Option Deed
  | .trySend i =>
    match s.posters[i]? with
    | some (.sending (task :: _)) =>
      if s.worker.gone then some (.refused task)
      else if s.channel.length < channelCapacity then some (.accepted task)
      else some (.refused task)
    | _ => none
  | .work =>
    match s.worker with
    | .receiving => s.channel.head?.map .taken
    | .headers (chunk :: _) => some (.asked chunk)
    | .blobs (chunk :: _) => some (.weighed chunk)
    | .weighing _ (.ret (keep, _)) _ => if keep.isEmpty then none else some (.fetched keep)
    | _ => none
  | _ => none

structure History where
  accepted : List PrefetchTask
  refused : List PrefetchTask
  taken : List PrefetchTask
  asked : List (List ObjectId)
  weighed : List (List ObjectId)
  fetched : List (List ObjectId)

def History.add (h : History) : Deed → History
  | .accepted task => { h with accepted := h.accepted ++ [task] }
  | .refused task => { h with refused := h.refused ++ [task] }
  | .taken task => { h with taken := h.taken ++ [task] }
  | .asked chunk => { h with asked := h.asked ++ [chunk] }
  | .weighed chunk => { h with weighed := h.weighed ++ [chunk] }
  | .fetched keep => { h with fetched := h.fetched ++ [keep] }

def History.of (log : List Deed) : History := log.foldl .add ⟨[], [], [], [], [], []⟩

def headerOids (tasks : List PrefetchTask) : List ObjectId :=
  tasks.flatMap fun | .headers oids => oids | .blobs _ => []
def blobOids (tasks : List PrefetchTask) : List ObjectId :=
  tasks.flatMap fun | .blobs oids => oids | .headers _ => []

namespace WorkerLoop

def toAsk : WorkerLoop σ → List (List ObjectId)
  | .headers left | .probing _ _ left => left
  | .adding _ next => next.toAsk
  | _ => []

def toWeigh : WorkerLoop σ → List (List ObjectId)
  | .blobs left | .weighing _ _ left | .fetching _ _ left => left
  | .adding _ next => next.toWeigh
  | _ => []

end WorkerLoop

/-! ### Chunks -/

theorem chunks_flatten {fuel : Nat} {oids : List ObjectId} (enough : oids.length ≤ fuel) :
    (Worker.chunks fuel oids).flatten = oids := by
  induction fuel generalizing oids with
  | zero => rw [List.length_eq_zero_iff.mp (Nat.le_zero.mp enough)]; rfl
  | succ fuel ih =>
    unfold Worker.chunks
    split
    · rename_i none
      rw [List.isEmpty_iff.mp none]
      rfl
    · have shorter : (oids.drop Worker.maxBatch).length ≤ fuel := by
        rw [List.length_drop, Worker.maxBatch]
        omega
      rw [List.flatten_cons, ih shorter, List.take_append_drop]

theorem chunks_sized {fuel : Nat} {oids : List ObjectId} :
    ∀ chunk ∈ Worker.chunks fuel oids, chunk ≠ [] ∧ chunk.length ≤ Worker.maxBatch := by
  induction fuel generalizing oids with
  | zero => exact fun _ inside => absurd inside List.not_mem_nil
  | succ fuel ih =>
    unfold Worker.chunks
    split
    · exact fun _ inside => absurd inside List.not_mem_nil
    · rename_i some_
      intro chunk inside
      rcases List.mem_cons.mp inside with rfl | later
      · refine ⟨fun none => some_ ?_, by rw [List.length_take]; omega⟩
        cases oids with
        | nil => rfl
        | cons oid rest => simp [Worker.maxBatch] at none
      · exact ih chunk later

/-! ### What a step of the worker does -/

section
variable {C : StoreCalls σ} {blobPrefetch : Bool} {cap : Nat}
  {outside : σ → ε → Option σ} {s t : Prefetch σ}

/-- One step of `worker_loop`, with what is seen of it. -/
inductive Works (C : StoreCalls σ) (cap : Nat) (s : Prefetch σ) :
    Option Deed → Prefetch σ → Prop
  | received {task rest} (at_ : s.worker = .receiving) (next : s.channel = task :: rest) :
      Works C cap s (some (.taken task)) { s with channel := rest, worker := .start task }
  | hungUp (at_ : s.worker = .receiving) (empty : s.channel = []) (closed : s.handle ≠ .opened) :
      Works C cap s none { s with worker := .exited }
  | headersDone (at_ : s.worker = .headers []) : Works C cap s none { s with worker := .receiving }
  | blobsDone (at_ : s.worker = .blobs []) : Works C cap s none { s with worker := .receiving }
  | asked {chunk left} (at_ : s.worker = .headers (chunk :: left)) :
      Works C cap s (some (.asked chunk))
        { s with worker := .probing chunk (C.prefetchHeaders chunk) left }
  | probed {chunk probes left} (at_ : s.worker = .probing chunk (.ret probes) left) :
      Works C cap s none { s with worker := .adding (probeSums probes) (.headers left) }
  | probing {chunk left β act next b store}
      (at_ : s.worker = .probing chunk (.atom (β := β) act next) left)
      (moved : act s.store = some (b, store)) :
      Works C cap s none { s with worker := .probing chunk (next b) left, store := store }
  | weighed {chunk left} (at_ : s.worker = .blobs (chunk :: left)) :
      Works C cap s (some (.weighed chunk))
        { s with worker := .weighing chunk (blobsUnderCap C cap chunk) left }
  | nothingKept {chunk skipped left} (at_ : s.worker = .weighing chunk (.ret ([], skipped)) left) :
      Works C cap s none { s with worker := .adding [(.blobsSkipped, skipped)] (.blobs left) }
  | kept {chunk keep skipped left} (at_ : s.worker = .weighing chunk (.ret (keep, skipped)) left)
      (some_ : keep ≠ []) :
      Works C cap s (some (.fetched keep)) { s with
        worker := .adding [(.blobsSkipped, skipped)] (.fetching keep (C.fetchObjects keep) left) }
  | weighing {chunk left β act next b store}
      (at_ : s.worker = .weighing chunk (.atom (β := β) act next) left)
      (moved : act s.store = some (b, store)) :
      Works C cap s none { s with worker := .weighing chunk (next b) left, store := store }
  | fetched {keep probes left} (at_ : s.worker = .fetching keep (.ret probes) left) :
      Works C cap s none { s with worker := .adding (fetchSums probes) (.blobs left) }
  | fetching {keep left β act next b store}
      (at_ : s.worker = .fetching keep (.atom (β := β) act next) left)
      (moved : act s.store = some (b, store)) :
      Works C cap s none { s with worker := .fetching keep (next b) left, store := store }
  | added {next} (at_ : s.worker = .adding [] next) : Works C cap s none { s with worker := next }
  | adds {counter n sums next} (at_ : s.worker = .adding ((counter, n) :: sums) next) :
      Works C cap s none { s.fetchAdd counter n with worker := .adding sums next }

theorem work_cases (moved : work C cap s = some t) :
    Works C cap s (deed s (.work : Action ε)) t := by
  unfold work at moved
  split at moved
  · rename_i here
    split at moved
    · rename_i next
      cases moved
      simp only [deed, here, next]
      exact .received here next
    · rename_i empty
      split at moved
      · cases moved
      · cases moved
        have unseen : deed s (.work : Action ε) = none := by simp [deed, here, empty]
        rw [unseen]
        exact .hungUp here empty ‹_›
  · rename_i here
    cases moved
    simp only [deed, here]
    exact .headersDone here
  · rename_i here
    cases moved
    simp only [deed, here]
    exact .blobsDone here
  · rename_i here
    cases moved
    simp only [deed, here]
    exact .asked here
  · rename_i here
    cases moved
    simp only [deed, here]
    exact .probed here
  · rename_i here
    obtain ⟨⟨b, store⟩, ran, rfl⟩ := Option.map_eq_some_iff.mp moved
    simp only [deed, here]
    exact .probing here ran
  · rename_i here
    cases moved
    simp only [deed, here]
    exact .weighed here
  · rename_i here
    cases moved
    simp only [deed, here]
    split
    · rename_i none_
      obtain rfl := List.isEmpty_iff.mp none_
      exact .nothingKept here
    · rename_i some_
      exact .kept here fun none_ => some_ (List.isEmpty_iff.mpr none_)
  · rename_i here
    obtain ⟨⟨b, store⟩, ran, rfl⟩ := Option.map_eq_some_iff.mp moved
    simp only [deed, here]
    exact .weighing here ran
  · rename_i here
    cases moved
    simp only [deed, here]
    exact .fetched here
  · rename_i here
    obtain ⟨⟨b, store⟩, ran, rfl⟩ := Option.map_eq_some_iff.mp moved
    simp only [deed, here]
    exact .fetching here ran
  · rename_i here
    cases moved
    simp only [deed, here]
    exact .added here
  · rename_i here
    cases moved
    simp only [deed, here]
    exact .adds here
  · cases moved
  · cases moved

theorem trySend_cases {i : Nat} (moved : trySend s i = some t) :
    ∃ task rest, s.posters[i]? = some (.sending (task :: rest)) ∧
      (deed s (.trySend i : Action ε) = some (.accepted task) ∧ s.worker.gone = false ∧
          s.channel.length < channelCapacity ∧
          t = { s.setPoster i (.counting true rest) with channel := s.channel ++ [task] } ∨
        deed s (.trySend i : Action ε) = some (.refused task) ∧
          t = s.setPoster i (.counting false rest)) := by
  unfold trySend at moved
  split at moved
  · rename_i task rest found
    refine ⟨task, rest, found, ?_⟩
    split at moved
    · rename_i gone
      cases moved
      exact Or.inr ⟨by simp [deed, found, gone], rfl⟩
    · rename_i there
      split at moved
      · rename_i room
        cases moved
        exact Or.inl ⟨by simp [deed, found, there, room], by simpa using there, room, rfl⟩
      · rename_i full
        cases moved
        exact Or.inr ⟨by simp [deed, found, there, full], rfl⟩
  · cases moved

theorem panic_cases (moved : panic s = some t) :
    t = { s with worker := .panicked, channel := [] } := by
  unfold panic at moved
  split at moved <;> cases moved <;> rfl

theorem count_cases {i : Nat} (moved : count s i = some t) :
    ∃ sent rest, s.posters[i]? = some (.counting sent rest) ∧
      t = (s.fetchAdd (if sent then .posted else .dropped) 1).setPoster i (.sending rest) := by
  unfold count at moved
  split at moved
  · cases moved
    exact ⟨_, _, ‹_›, rfl⟩
  · cases moved

/-! ### Order -/

/-- All of `whole` is there, or the worker crashed and the rest is lost. -/
def Covers (worker : WorkerLoop σ) {α : Type} (there whole : List α) : Prop :=
  ∃ lost, whole = there ++ lost ∧ (worker ≠ .panicked → lost = [])

/-- Tasks leave in the order in which they came, and the ids of a task in its own. -/
structure InOrder (h : History) (s : Prefetch σ) : Prop where
  bounded : s.channel.length ≤ channelCapacity
  tasks : Covers s.worker (h.taken ++ s.channel) h.accepted
  headers : Covers s.worker (h.asked.flatten ++ s.worker.toAsk.flatten) (headerOids h.taken)
  blobs : Covers s.worker (h.weighed.flatten ++ s.worker.toWeigh.flatten) (blobOids h.taken)
  sized : ∀ chunk ∈ h.asked ++ h.weighed ++ (s.worker.toAsk ++ s.worker.toWeigh),
    chunk ≠ [] ∧ chunk.length ≤ Worker.maxBatch

theorem Covers.exact {worker : WorkerLoop σ} {α : Type} {there whole : List α}
    (covers : Covers worker there whole) (running : worker ≠ .panicked) : whole = there := by
  obtain ⟨lost, rfl, none⟩ := covers
  rw [none running, List.append_nil]

theorem covers_of_eq {worker : WorkerLoop σ} {α : Type} {there whole : List α}
    (same : whole = there) : Covers worker there whole :=
  ⟨[], by rw [same, List.append_nil], fun _ => rfl⟩

theorem start_toAsk (task : PrefetchTask) :
    (WorkerLoop.start task : WorkerLoop σ).toAsk.flatten = headerOids [task] ∧
      (WorkerLoop.start task : WorkerLoop σ).toWeigh.flatten = blobOids [task] := by
  cases task <;> simp [WorkerLoop.start, WorkerLoop.toAsk, WorkerLoop.toWeigh, headerOids,
    blobOids, chunks_flatten]

theorem start_sized (task : PrefetchTask) :
    ∀ chunk ∈ (WorkerLoop.start task : WorkerLoop σ).toAsk ++
        (WorkerLoop.start task : WorkerLoop σ).toWeigh,
      chunk ≠ [] ∧ chunk.length ≤ Worker.maxBatch := by
  cases task <;> simpa [WorkerLoop.start, WorkerLoop.toAsk, WorkerLoop.toWeigh] using chunks_sized

theorem InOrder.move {h : History} (order : InOrder h s) (running : s.worker ≠ .panicked)
    (channel : t.channel = s.channel) (toAsk : t.worker.toAsk = s.worker.toAsk)
    (toWeigh : t.worker.toWeigh = s.worker.toWeigh) : InOrder h t := by
  obtain ⟨bounded, tasks, headers, blobs, sized⟩ := order
  refine ⟨channel ▸ bounded, covers_of_eq ?_, covers_of_eq ?_, covers_of_eq ?_, ?_⟩
  · rw [channel, tasks.exact running]
  · rw [toAsk, headers.exact running]
  · rw [toWeigh, blobs.exact running]
  · rwa [toAsk, toWeigh]

theorem Works.running {seen : Option Deed} (works : Works C cap s seen t) :
    s.worker ≠ .panicked := by
  intro gone
  cases works <;> simp_all

theorem Works.inOrder {h : History} {seen : Option Deed} (works : Works C cap s seen t)
    (order : InOrder h s) : InOrder (seen.elim h h.add) t := by
  have running := works.running
  obtain ⟨bounded, tasks, headers, blobs, sized⟩ := id order
  have tasks := tasks.exact running
  have headers := headers.exact running
  have blobs := blobs.exact running
  cases works with
  | @received task rest at_ next =>
    obtain ⟨toAsk, toWeigh⟩ := start_toAsk (σ := σ) task
    have pieces := start_sized (σ := σ) task
    rw [at_] at headers blobs sized
    rw [next] at tasks bounded
    refine ⟨?_, covers_of_eq ?_, covers_of_eq ?_, covers_of_eq ?_, ?_⟩
    · rw [List.length_cons] at bounded
      exact Nat.le_of_succ_le bounded
    · simpa [History.add] using tasks
    · simp_all [History.add, headerOids, WorkerLoop.toAsk]
    · simp_all [History.add, blobOids, WorkerLoop.toWeigh]
    · intro chunk inside
      rcases List.mem_append.mp inside with old | new
      · exact sized chunk (List.mem_append_left _ old)
      · exact pieces chunk new
  | @asked chunk left at_ =>
    rw [at_] at headers blobs sized
    refine ⟨bounded, covers_of_eq tasks, covers_of_eq ?_, covers_of_eq blobs,
      fun piece inside => ?_⟩
    · simpa [History.add, WorkerLoop.toAsk] using headers
    · apply sized piece
      simp only [Option.elim, History.add, WorkerLoop.toAsk, WorkerLoop.toWeigh, List.mem_append,
        List.mem_cons] at inside ⊢
      tauto
  | @weighed chunk left at_ =>
    rw [at_] at headers blobs sized
    refine ⟨bounded, covers_of_eq tasks, covers_of_eq headers, covers_of_eq ?_,
      fun piece inside => ?_⟩
    · simpa [History.add, WorkerLoop.toWeigh] using blobs
    · apply sized piece
      simp only [Option.elim, History.add, WorkerLoop.toAsk, WorkerLoop.toWeigh, List.mem_append,
        List.mem_cons] at inside ⊢
      tauto
  | @kept chunk keep skipped left at_ some_ =>
    rw [at_] at headers blobs sized
    exact ⟨bounded, covers_of_eq tasks, covers_of_eq headers, covers_of_eq blobs, sized⟩
  | _ at_ => exact order.move running rfl (by rw [at_]; rfl) (by rw [at_]; rfl)

theorem InOrder.of_same {h h' : History} (order : InOrder h s) (channel : t.channel = s.channel)
    (worker : t.worker = s.worker)
    (same : h' = { h with refused := h'.refused }) : InOrder h' t := by
  obtain ⟨bounded, tasks, headers, blobs, sized⟩ := order
  rw [same]
  refine ⟨?_, ?_, ?_, ?_, ?_⟩ <;> simp only [channel, worker] <;> assumption

theorem step_inOrder {h : History} {a : Action ε}
    (moved : step C blobPrefetch cap outside s a = some t) (order : InOrder h s) :
    InOrder ((deed s a).elim h h.add) t := by
  cases a with
  | post oids =>
    simp only [step] at moved
    split at moved <;> cases moved
    exact order.of_same rfl rfl rfl
  | trySend i =>
    obtain ⟨task, rest, found, ⟨shown, there, room, rfl⟩ | ⟨shown, rfl⟩⟩ :=
    trySend_cases (ε := ε) moved
    · have running : s.worker ≠ .panicked := by
        intro gone
        rw [gone] at there
        cases there
      rw [shown]
      obtain ⟨bounded, tasks, headers, blobs, sized⟩ := order
      refine ⟨?_, covers_of_eq ?_, headers, blobs, sized⟩
      · rw [List.length_append]
        exact room
      · simp [History.add, tasks.exact running]
    · rw [shown]
      exact order.of_same rfl rfl rfl
  | count i =>
    obtain ⟨sent, rest, found, rfl⟩ := count_cases moved
    exact order.of_same rfl rfl rfl
  | work => exact (work_cases moved).inOrder order
  | panic =>
    obtain rfl := panic_cases moved
    obtain ⟨bounded, ⟨lost, tasks, -⟩, ⟨lost', headers, -⟩, ⟨lost'', blobs, -⟩, sized⟩ := order
    refine ⟨Nat.zero_le _, ⟨s.channel ++ lost, ?_, fun running => absurd rfl running⟩,
      ⟨s.worker.toAsk.flatten ++ lost', ?_, fun running => absurd rfl running⟩,
      ⟨s.worker.toWeigh.flatten ++ lost'', ?_, fun running => absurd rfl running⟩,
      fun chunk inside => sized chunk ?_⟩
    · simpa [deed] using tasks
    · simpa [deed, WorkerLoop.toAsk] using headers
    · simpa [deed, WorkerLoop.toWeigh] using blobs
    · exact List.mem_append_left _ <| by
        simpa [deed, WorkerLoop.toAsk, WorkerLoop.toWeigh] using inside
  | close =>
    simp only [step] at moved
    split at moved <;> cases moved
    exact order.of_same rfl rfl rfl
  | join =>
    simp only [step] at moved
    split at moved <;> cases moved
    exact order.of_same rfl rfl rfl
  | outside e =>
    obtain ⟨store, ran, rfl⟩ := Option.map_eq_some_iff.mp moved
    exact order.of_same rfl rfl rfl

theorem history_snoc (log : List Deed) (seen : Option Deed) :
    History.of (log ++ seen.toList) = seen.elim (.of log) (History.of log).add := by
  cases seen with
  | none => simp
  | some d => simp [History.of]

def history (C : StoreCalls σ) (blobPrefetch : Bool) (cap : Nat)
    (outside : σ → ε → Option σ) (store : σ) (acts : List (Action ε)) : History :=
  .of (seen (step C blobPrefetch cap outside) deed (.spawn store) acts)

theorem run_inOrder {store : σ} {acts : List (Action ε)}
    (run : exec (step C blobPrefetch cap outside) (.spawn store) acts = some s) :
    InOrder (history C blobPrefetch cap outside store acts) s := by
  have keeps : ∀ log u a v, step C blobPrefetch cap outside u a = some v →
      InOrder (.of log) u → InOrder (.of (log ++ (deed u a).toList)) v := by
    intro log u a v moved order
    rw [history_snoc]
    exact step_inOrder moved order
  refine exec_keeps_seen keeps run ⟨Nat.zero_le _, ?_, ?_, ?_, ?_⟩
  · exact covers_of_eq rfl
  · exact covers_of_eq rfl
  · exact covers_of_eq rfl
  · exact fun _ inside => absurd inside List.not_mem_nil

/-! ### Dropping the handle -/

/-- What the worker has before it once the channel is closed, whatever the store answers. -/
inductive Onward (C : StoreCalls σ) (cap : Nat) :
    List PrefetchTask × WorkerLoop σ → List PrefetchTask × WorkerLoop σ → Prop
  | received {task rest} : Onward C cap (rest, .start task) (task :: rest, .receiving)
  | hungUp : Onward C cap ([], .exited) ([], .receiving)
  | headersDone {channel} : Onward C cap (channel, .receiving) (channel, .headers [])
  | blobsDone {channel} : Onward C cap (channel, .receiving) (channel, .blobs [])
  | asked {channel chunk left} : Onward C cap
      (channel, .probing chunk (C.prefetchHeaders chunk) left) (channel, .headers (chunk :: left))
  | probed {channel chunk probes left} : Onward C cap
      (channel, .adding (probeSums probes) (.headers left))
        (channel, .probing chunk (.ret probes) left)
  | probing {channel chunk left β act next b} : Onward C cap
      (channel, .probing chunk (next b) left)
        (channel, .probing chunk (.atom (β := β) act next) left)
  | weighed {channel chunk left} : Onward C cap
      (channel, .weighing chunk (blobsUnderCap C cap chunk) left) (channel, .blobs (chunk :: left))
  | sorted {channel chunk keep skipped left} {next : WorkerLoop σ}
      (next_ : next = .blobs left ∨ next = .fetching keep (C.fetchObjects keep) left) :
      Onward C cap (channel, .adding [(.blobsSkipped, skipped)] next)
        (channel, .weighing chunk (.ret (keep, skipped)) left)
  | weighing {channel chunk left β act next b} : Onward C cap
      (channel, .weighing chunk (next b) left)
        (channel, .weighing chunk (.atom (β := β) act next) left)
  | fetched {channel keep probes left} : Onward C cap
      (channel, .adding (fetchSums probes) (.blobs left))
        (channel, .fetching keep (.ret probes) left)
  | fetching {channel keep left β act next b} : Onward C cap
      (channel, .fetching keep (next b) left)
        (channel, .fetching keep (.atom (β := β) act next) left)
  | added {channel next} : Onward C cap (channel, next) (channel, .adding [] next)
  | adds {channel sum sums next} :
      Onward C cap (channel, .adding sums next) (channel, .adding (sum :: sums) next)

theorem Works.onward {seen : Option Deed} (works : Works C cap s seen t) :
    Onward C cap (t.channel, t.worker) (s.channel, s.worker) := by
  cases works with
  | received at_ next => rw [at_, next]; exact .received
  | hungUp at_ empty closed => rw [at_, empty]; exact .hungUp
  | headersDone at_ => rw [at_]; exact .headersDone
  | blobsDone at_ => rw [at_]; exact .blobsDone
  | asked at_ => rw [at_]; exact .asked
  | probed at_ => rw [at_]; exact .probed
  | probing at_ moved => rw [at_]; exact .probing
  | weighed at_ => rw [at_]; exact .weighed
  | nothingKept at_ => rw [at_]; exact .sorted (Or.inl rfl)
  | kept at_ some_ => rw [at_]; exact .sorted (Or.inr rfl)
  | weighing at_ moved => rw [at_]; exact .weighing
  | fetched at_ => rw [at_]; exact .fetched
  | fetching at_ moved => rw [at_]; exact .fetching
  | added at_ => rw [at_]; exact .added
  | adds at_ => rw [at_]; exact .adds

section
variable {channel : List PrefetchTask}

theorem acc_adding {next : WorkerLoop σ} (rest : Acc (Onward C cap) (channel, next))
    (sums : List (Counter × Nat)) : Acc (Onward C cap) (channel, .adding sums next) := by
  induction sums with
  | nil => exact .intro _ fun _ goes => by cases goes; exact rest
  | cons sum sums ih => exact .intro _ fun _ goes => by cases goes; exact ih

theorem acc_probing {left : List (List ObjectId)}
    (rest : Acc (Onward C cap) (channel, .headers left)) (chunk : List ObjectId)
    (call : Prog σ (List HeaderProbe)) :
    Acc (Onward C cap) (channel, .probing chunk call left) := by
  induction call with
  | ret probes => exact .intro _ fun _ goes => by cases goes; exact acc_adding rest _
  | atom act next ih => exact .intro _ fun _ goes => by cases goes; exact ih _

theorem acc_fetching {left : List (List ObjectId)}
    (rest : Acc (Onward C cap) (channel, .blobs left)) (keep : List ObjectId)
    (call : Prog σ (List HeaderProbe)) :
    Acc (Onward C cap) (channel, .fetching keep call left) := by
  induction call with
  | ret probes => exact .intro _ fun _ goes => by cases goes; exact acc_adding rest _
  | atom act next ih => exact .intro _ fun _ goes => by cases goes; exact ih _

theorem acc_weighing {left : List (List ObjectId)}
    (rest : Acc (Onward C cap) (channel, .blobs left)) (chunk : List ObjectId)
    (call : Prog σ (List ObjectId × Nat)) :
    Acc (Onward C cap) (channel, .weighing chunk call left) := by
  induction call with
  | ret r =>
    refine .intro _ fun _ goes => ?_
    cases goes with
    | sorted next_ =>
      apply acc_adding
      rcases next_ with rfl | rfl
      · exact rest
      · exact acc_fetching rest _ _
  | atom act next ih => exact .intro _ fun _ goes => by cases goes; exact ih _

theorem acc_headers (rest : Acc (Onward C cap) (channel, .receiving))
    (left : List (List ObjectId)) : Acc (Onward C cap) (channel, .headers left) := by
  induction left with
  | nil => exact .intro _ fun _ goes => by cases goes; exact rest
  | cons chunk left ih => exact .intro _ fun _ goes => by cases goes; exact acc_probing ih _ _

theorem acc_blobs (rest : Acc (Onward C cap) (channel, .receiving))
    (left : List (List ObjectId)) : Acc (Onward C cap) (channel, .blobs left) := by
  induction left with
  | nil => exact .intro _ fun _ goes => by cases goes; exact rest
  | cons chunk left ih => exact .intro _ fun _ goes => by cases goes; exact acc_weighing ih _ _

end

/-- By the tasks that are queued. -/
theorem acc_receiving (channel : List PrefetchTask) :
    Acc (Onward C cap) (channel, .receiving) := by
  induction channel with
  | nil =>
    refine .intro _ fun _ goes => ?_
    cases goes
    exact .intro _ fun _ goes => by cases goes
  | cons task rest ih =>
    refine .intro _ fun _ goes => ?_
    cases goes
    cases task
    · exact acc_headers ih _
    · exact acc_blobs ih _

theorem onward_ends (channel : List PrefetchTask) (worker : WorkerLoop σ) :
    Acc (Onward C cap) (channel, worker) := by
  have rest : Acc (Onward C cap) (channel, .receiving) := acc_receiving channel
  induction worker with
  | receiving => exact rest
  | headers left => exact acc_headers rest left
  | probing chunk call left => exact acc_probing (acc_headers rest left) chunk call
  | blobs left => exact acc_blobs rest left
  | weighing chunk call left => exact acc_weighing (acc_blobs rest left) chunk call
  | fetching keep call left => exact acc_fetching (acc_blobs rest left) keep call
  | adding sums next ih => exact acc_adding ih sums
  | exited => exact .intro _ fun _ goes => by cases goes
  | panicked => exact .intro _ fun _ goes => by cases goes

theorem Works.handle {seen : Option Deed} (works : Works C cap s seen t) :
    t.handle = s.handle ∧ t.posters = s.posters := by
  cases works <;> exact ⟨rfl, rfl⟩

theorem start_not_exited (task : PrefetchTask) :
    (WorkerLoop.start task : WorkerLoop σ) ≠ .exited := by
  cases task <;> simp [WorkerLoop.start]

/-- An `adding` goes on to something else than the end. -/
def WorkerLoop.Lively : WorkerLoop σ → Prop
  | .adding _ next => next ≠ .exited ∧ next.Lively
  | _ => True

theorem Works.lively {seen : Option Deed} (works : Works C cap s seen t)
    (lively : s.worker.Lively) :
    t.worker.Lively ∧ (t.worker = .exited → s.handle ≠ .opened ∧ t.channel = []) := by
  cases works with
  | @received task rest at_ next =>
    refine ⟨?_, fun left => absurd left (start_not_exited _)⟩
    cases task <;> exact trivial
  | hungUp at_ empty closed => exact ⟨trivial, fun _ => ⟨closed, empty⟩⟩
  | added at_ =>
    rw [at_] at lively
    exact ⟨lively.2, fun left => absurd left lively.1⟩
  | adds at_ =>
    rw [at_] at lively
    exact ⟨lively, by simp⟩
  | probed at_ => exact ⟨⟨by simp, trivial⟩, by simp⟩
  | nothingKept at_ => exact ⟨⟨by simp, trivial⟩, by simp⟩
  | kept at_ some_ => exact ⟨⟨by simp, trivial⟩, by simp⟩
  | fetched at_ => exact ⟨⟨by simp, trivial⟩, by simp⟩
  | _ => exact ⟨trivial, by simp⟩

/-- Once the channel is closed nobody posts, and the worker has only left an empty one. -/
structure Shut (s : Prefetch σ) : Prop where
  lively : s.worker.Lively
  alone : s.handle ≠ .opened → ∀ poster ∈ s.posters, poster.returned = true
  exited : s.worker = .exited → s.handle ≠ .opened ∧ s.channel = []

theorem Shut.opened_of_busy (shut : Shut s) {i : Nat} {poster : Poster}
    (found : s.posters[i]? = some poster) (busy : poster.returned = false) :
    s.handle = .opened := by
  by_contra closed
  have returned := shut.alone closed poster (List.mem_of_getElem? found)
  rw [busy] at returned
  cases returned

theorem Shut.of_opened (shut : Shut s) (opened : s.handle = .opened)
    (worker : t.worker = s.worker) (handle : t.handle = s.handle) : Shut t := by
  refine ⟨worker ▸ shut.lively, fun closed => absurd (handle.trans opened) closed, fun left => ?_⟩
  exact absurd opened (shut.exited (worker ▸ left)).1

theorem step_shut {a : Action ε} (moved : step C blobPrefetch cap outside s a = some t)
    (shut : Shut s) : Shut t := by
  cases a with
  | post oids =>
    simp only [step] at moved
    split at moved <;> cases moved
    exact shut.of_opened ‹_› rfl rfl
  | trySend i =>
    obtain ⟨task, rest, found, ⟨-, -, -, rfl⟩ | ⟨-, rfl⟩⟩ := trySend_cases (ε := ε) moved
    · exact shut.of_opened (shut.opened_of_busy found rfl) rfl rfl
    · exact shut.of_opened (shut.opened_of_busy found rfl) rfl rfl
  | count i =>
    obtain ⟨sent, rest, found, rfl⟩ := count_cases moved
    exact shut.of_opened (shut.opened_of_busy found rfl) rfl rfl
  | work =>
    have works := work_cases (ε := ε) moved
    obtain ⟨handle, posters⟩ := works.handle
    obtain ⟨lively, exited⟩ := works.lively shut.lively
    refine ⟨lively, ?_, ?_⟩
    · rw [handle, posters]
      exact shut.alone
    · rw [handle]
      exact exited
  | panic =>
    obtain rfl := panic_cases moved
    exact ⟨trivial, shut.alone, by simp⟩
  | close =>
    simp only [step] at moved
    split at moved
    · rename_i closing
      cases moved
      refine ⟨shut.lively, fun _ => List.all_eq_true.mp closing.2, fun left => ⟨by simp, ?_⟩⟩
      exact (shut.exited left).2
    · cases moved
  | join =>
    simp only [step] at moved
    split at moved
    · rename_i ending
      cases moved
      refine ⟨shut.lively, fun _ => shut.alone (by simp [ending.1]), fun left => ⟨by simp, ?_⟩⟩
      exact (shut.exited left).2
    · cases moved
  | outside e =>
    obtain ⟨store, ran, rfl⟩ := Option.map_eq_some_iff.mp moved
    exact ⟨shut.lively, shut.alone, shut.exited⟩

theorem run_shut {store : σ} {acts : List (Action ε)}
    (run : exec (step C blobPrefetch cap outside) (.spawn store) acts = some s) : Shut s :=
  exec_keeps (fun _ _ _ moved shut => step_shut moved shut) run
    ⟨trivial, fun closed => absurd rfl closed, by simp [Prefetch.spawn]⟩

theorem step_closed {a : Action ε} (moved : step C blobPrefetch cap outside s a = some t)
    (shut : Shut s) (closed : s.handle ≠ .opened) :
    t.handle ≠ .opened ∧ (∀ task, deed s a ≠ some (.accepted task)) ∧ (a ≠ .work →
      (t.channel, t.worker) = (s.channel, s.worker) ∨ t.worker = .panicked) := by
  cases a with
  | post oids =>
    simp only [step] at moved
    split at moved <;> cases moved
    exact absurd ‹_› closed
  | trySend i =>
    obtain ⟨task, rest, found, -⟩ := trySend_cases (ε := ε) moved
    exact absurd (shut.opened_of_busy found rfl) closed
  | count i =>
    obtain ⟨sent, rest, found, -⟩ := count_cases moved
    exact absurd (shut.opened_of_busy found rfl) closed
  | work =>
    have works := work_cases (ε := ε) moved
    obtain ⟨handle, -⟩ := works.handle
    refine ⟨handle ▸ closed, fun task => ?_, fun other => absurd rfl other⟩
    revert works
    generalize deed s (.work : Action ε) = seen
    rintro works rfl
    cases works
  | panic =>
    obtain rfl := panic_cases moved
    exact ⟨closed, by simp [deed], fun _ => Or.inr rfl⟩
  | close =>
    simp only [step] at moved
    split at moved <;> cases moved
    exact ⟨by simp, by simp [deed], fun _ => Or.inl rfl⟩
  | join =>
    simp only [step] at moved
    split at moved <;> cases moved
    exact ⟨by simp, by simp [deed], fun _ => Or.inl rfl⟩
  | outside e =>
    obtain ⟨store, ran, rfl⟩ := Option.map_eq_some_iff.mp moved
    exact ⟨closed, by simp [deed], fun _ => Or.inl rfl⟩

theorem exec_closed {others : List (Action ε)} (idle : ∀ a ∈ others, a ≠ .work)
    (run : exec (step C blobPrefetch cap outside) s others = some t) (shut : Shut s)
    (closed : s.handle ≠ .opened) :
    Shut t ∧ t.handle ≠ .opened ∧
      ((t.channel, t.worker) = (s.channel, s.worker) ∨ t.worker = .panicked) := by
  induction others generalizing s with
  | nil =>
    cases Option.some.inj run
    exact ⟨shut, closed, Or.inl rfl⟩
  | cons a rest ih =>
    obtain ⟨mid, first, tail⟩ := exec_cons run
    obtain ⟨still, -, left⟩ := step_closed first shut closed
    obtain ⟨shut', closed', there⟩ :=
      ih (fun b later => idle b (List.mem_cons_of_mem a later)) tail (step_shut first shut) still
    refine ⟨shut', closed', ?_⟩
    rcases there with same | gone
    · rcases left (idle a (List.mem_cons_self ..)) with before | gone
      · exact Or.inl (same.trans before)
      · exact Or.inr ((Prod.mk.inj same).2.trans gone)
    · exact Or.inr gone

def Next (C : StoreCalls σ) (blobPrefetch : Bool) (cap : Nat)
    (outside : σ → ε → Option σ) (t s : Prefetch σ) : Prop :=
  ∃ others mid, (∀ a ∈ others, a ≠ .work) ∧
    exec (step C blobPrefetch cap outside) s others = some mid ∧
      step C blobPrefetch cap outside mid .work = some t

theorem next_ends (shut : Shut s) (closed : s.handle ≠ .opened) :
    Acc (Next C blobPrefetch cap outside) s := by
  have all : ∀ q, Acc (Onward C cap) q → ∀ s, Shut s → s.handle ≠ .opened →
      (s.channel, s.worker) = q → Acc (Next C blobPrefetch cap outside) s := by
    intro q ends
    induction ends with
    | intro q _ ih =>
      intro s shut closed at_
      refine .intro s ?_
      rintro t ⟨others, mid, idle, run, moved⟩
      obtain ⟨shut', closed', there⟩ := exec_closed idle run shut closed
      have works := work_cases (ε := ε) moved
      rcases there with same | gone
      · refine ih _ ?_ t (step_shut moved shut') (works.handle.1 ▸ closed') rfl
        rw [← at_, ← same]
        exact works.onward
      · exact absurd gone works.running
  exact all _ (onward_ends _ _) s shut closed rfl

def WorkerLoop.Waits (store : σ) : WorkerLoop σ → Prop
  | .probing _ (.atom act _) _ | .fetching _ (.atom act _) _ => act store = none
  | .weighing _ (.atom act _) _ => act store = none
  | _ => False

theorem work_goes_on (closed : s.handle ≠ .opened) :
    (∃ t, work C cap s = some t) ∨ s.worker.Waits s.store ∨ s.worker.gone = true := by
  have acts : ∀ {β : Type} (act : σ → Option (β × σ)) (f : β × σ → Prefetch σ),
      (∃ t, (act s.store).map f = some t) ∨ act s.store = none := by
    intro β act f
    cases act s.store with
    | none => exact Or.inr rfl
    | some r => exact Or.inl ⟨_, rfl⟩
  cases at_ : s.worker with
  | receiving =>
    left
    cases next : s.channel <;> exact ⟨_, by simp [work, at_, next, closed]; rfl⟩
  | headers left_ => cases left_ <;> exact Or.inl ⟨_, by simp [work, at_]; rfl⟩
  | blobs left_ => cases left_ <;> exact Or.inl ⟨_, by simp [work, at_]; rfl⟩
  | probing chunk call left_ =>
    cases call with
    | ret probes => exact Or.inl ⟨_, by simp [work, at_]; rfl⟩
    | atom act next =>
      simp only [work, at_]
      exact (acts act _).imp_right Or.inl
  | weighing chunk call left_ =>
    cases call with
    | ret r => exact Or.inl ⟨_, by simp [work, at_]; rfl⟩
    | atom act next =>
      simp only [work, at_]
      exact (acts act _).imp_right Or.inl
  | fetching keep call left_ =>
    cases call with
    | ret probes => exact Or.inl ⟨_, by simp [work, at_]; rfl⟩
    | atom act next =>
      simp only [work, at_]
      exact (acts act _).imp_right Or.inl
  | adding sums next => cases sums <;> exact Or.inl ⟨_, by simp [work, at_]; rfl⟩
  | exited => exact Or.inr (Or.inr rfl)
  | panicked => exact Or.inr (Or.inr rfl)

theorem accepted_append {log later : List Deed} (none_ : ∀ task, .accepted task ∉ later) :
    (History.of (log ++ later)).accepted = (History.of log).accepted := by
  have folded : ∀ h : History, (later.foldl .add h).accepted = h.accepted := by
    intro h
    induction later generalizing h with
    | nil => rfl
    | cons d rest ih =>
      rw [List.foldl_cons, ih (fun task later => none_ task (List.mem_cons_of_mem d later))]
      cases d with
      | accepted task => exact absurd (List.mem_cons_self ..) (none_ task)
      | _ => rfl
  rw [History.of, List.foldl_append]
  exact folded _

/-- In every run, from the moment `drop` has closed the channel: no task is accepted any more,
    the worker has finitely many steps before it whatever others do, is stopped by nothing but
    a call that has to wait, and when it has left, `drop` returns and everything that was
    accepted has been asked for or weighed. -/
theorem drop_drains {store : σ} {acts more : List (Action ε)}
    (run : exec (step C blobPrefetch cap outside) (.spawn store) acts = some s)
    (closed : s.handle ≠ .opened)
    (goesOn : exec (step C blobPrefetch cap outside) s more = some t) :
    let h := history C blobPrefetch cap outside store (acts ++ more)
    Acc (Next C blobPrefetch cap outside) t ∧
    h.accepted = (history C blobPrefetch cap outside store acts).accepted ∧
    ((∃ u, step C blobPrefetch cap outside t .work = some u) ∨ t.worker.Waits t.store ∨
      t.worker.gone = true) ∧
    (t.worker = .exited → h.taken = h.accepted ∧ h.asked.flatten = headerOids h.accepted ∧
      h.weighed.flatten = blobOids h.accepted) ∧
    (t.worker.gone = true →
      t.handle = .joined ∨ ∃ u, step C blobPrefetch cap outside t .join = some u) := by
  have whole : exec (step C blobPrefetch cap outside) (.spawn store) (acts ++ more) = some t := by
    rw [exec_append, run]
    exact goesOn
  have shut := run_shut whole
  have keeps : ∀ log u a v, step C blobPrefetch cap outside u a = some v →
      (Shut u ∧ u.handle ≠ .opened ∧ ∀ task, .accepted task ∉ log) →
      Shut v ∧ v.handle ≠ .opened ∧ ∀ task, .accepted task ∉ log ++ (deed u a).toList := by
    rintro log u a v moved ⟨shut, closed, none_⟩
    obtain ⟨still, refuses, -⟩ := step_closed moved shut closed
    refine ⟨step_shut moved shut, still, fun task inside => ?_⟩
    rcases List.mem_append.mp inside with old | new
    · exact none_ task old
    · exact refuses task (Option.mem_toList.mp new)
  obtain ⟨-, still, none_⟩ := exec_keeps_seen keeps goesOn ⟨run_shut run, closed, by simp⟩
  have same : (history C blobPrefetch cap outside store (acts ++ more)).accepted =
      (history C blobPrefetch cap outside store acts).accepted := by
    rw [history, seen_append run]
    exact accepted_append none_
  refine ⟨next_ends shut still, same, work_goes_on still, fun left => ?_, fun gone => ?_⟩
  · obtain ⟨-, tasks, headers, blobs, -⟩ := run_inOrder whole
    have running : t.worker ≠ .panicked := by simp [left]
    have taken := tasks.exact running
    have asked := headers.exact running
    have weighed := blobs.exact running
    rw [(shut.exited left).2, List.append_nil] at taken
    simp only [left, WorkerLoop.toAsk, WorkerLoop.toWeigh, List.flatten_nil, List.append_nil]
      at asked weighed
    exact ⟨taken.symm, by rw [taken, asked], by rw [taken, weighed]⟩
  · cases at_ : t.handle with
    | opened => exact absurd at_ still
    | closed => exact Or.inr ⟨_, if_pos ⟨at_, gone⟩⟩
    | joined => exact Or.inl rfl

end
def smallBlob : ObjectId := ⟨List.replicate 20 0, rfl⟩

/-- A clone that holds one empty blob and reaches nothing else. -/
def emptyGix : Gix Unit where
  tryFindObject _ oid := .ok (if oid = smallBlob then some ⟨.blob, []⟩ else none)
  tryFindHeader _ oid := .ok (if oid = smallBlob then some (.blob, 0) else none)
  treeIter _ := []
  commitTreeId _ := .error "not a commit"
  committerSeconds _ := .error "not a commit"
  findReference _ _ := .error "no such reference"

def emptyStore : HydratingObjectStore (Prog (Store Unit)) := ⟨emptyGix.handle, NoopFetcher⟩

def noEvents (_ : Store Unit) (event : Empty) : Option (Store Unit) := event.elim

def emptyStep : Prefetch (Store Unit) → Action Empty → Option (Prefetch (Store Unit)) :=
  step (storeCalls emptyStore) true 100 noEvents

def noCaches : Store Unit := .withCapacities 0 0 0 0 ()

/-- A listing with one blob, posted for its header and its bytes, and a `drop` before the worker
    has begun. -/
def postAndDrop : List (Action Empty) :=
  [.post [smallBlob], .trySend 0, .count 0, .trySend 0, .count 0, .close]

def drainAll : List (Action Empty) := List.replicate 27 .work

theorem postAndDrop_result :
    ((exec emptyStep (.spawn noCaches) postAndDrop).map fun s =>
      (s.handle, s.channel.length)) = some (.closed, 2) ∧
    ((exec emptyStep (.spawn noCaches) (postAndDrop ++ drainAll)).map fun s =>
      (s.handle, s.worker.gone)) = some (.closed, true) := by
  decide +kernel

theorem dropped_handle_returns :
    ∃ s t, exec emptyStep (.spawn noCaches) postAndDrop = some s ∧ s.channel.length = 2 ∧
      exec emptyStep s drainAll = some t ∧ ∃ u, emptyStep t .join = some u := by
  obtain ⟨s, run, shape⟩ := Option.map_eq_some_iff.mp postAndDrop_result.1
  obtain ⟨closed, two⟩ := Prod.mk.inj shape
  obtain ⟨t, whole, ended⟩ := Option.map_eq_some_iff.mp postAndDrop_result.2
  obtain ⟨mid, first, goesOn⟩ := exec_append_some whole
  cases run.symm.trans first
  obtain ⟨still, gone⟩ := Prod.mk.inj ended
  have opened : s.handle ≠ .opened := by simp [closed]
  refine ⟨s, t, run, two, goesOn, ?_⟩
  rcases (drop_drains run opened goesOn).2.2.2.2 gone with joined | returns
  · rw [still] at joined
    cases joined
  · exact returns

end ProjgitPrefetch

import Projgit.PrefetchOrder

/-!
The prefetch counters. Whatever the fetcher answers, a call on the hydrating store gives one
probe for each id, so that what the counters say can be told from the tasks alone.
-/
namespace ProjgitPrefetch
open ProjgitStore ProjgitFs LabelledRuns Interleave

variable {σ ε : Type}

/-! ### One probe for each id -/

theorem reassemble_length (found : AList fun _ : ObjectId => HeaderProbe) (oids : List ObjectId) :
    (HydratingObjectStore.reassemble found oids).length = oids.length := by
  induction oids generalizing found with
  | nil => rfl
  | cons oid rest ih => simp [HydratingObjectStore.reassemble, ih]

section
variable (H : HydratingObjectStore (Prog σ))

theorem batch_answers (absent : ObjectId → Prog σ Bool)
    (ask : List ObjectId → Prog σ (List HeaderProbe)) (oids : List ObjectId) :
    (H.batch absent ask oids).Answers fun probes => probes.length = oids.length := by
  unfold HydratingObjectStore.batch
  refine (answers_any _).bind fun query _ => ?_
  split
  · exact List.length_map _
  · refine (answers_any _).bind fun probes _ => (answers_any _).bind fun _ _ => ?_
    exact reassemble_length _ oids

theorem prefetchHeaders_answers (oids : List ObjectId) :
    (H.prefetchHeaders oids).Answers fun probes => probes.length = oids.length :=
  batch_answers H _ _ oids

theorem fetchObjects_answers (oids : List ObjectId) :
    (H.fetchObjects oids).Answers fun probes => probes.length = oids.length := by
  unfold HydratingObjectStore.fetchObjects
  split
  · rename_i none
    rw [List.isEmpty_iff.mp none]
    exact rfl
  · exact batch_answers H _ _ oids

theorem blobsUnderCap_answers (cap : Nat) (oids : List ObjectId) :
    (blobsUnderCap (storeCalls H) cap oids).Answers fun r => r.1.length + r.2 = oids.length := by
  induction oids with
  | nil => exact rfl
  | cons oid rest ih =>
    refine (answers_any _).bind fun header _ => ih.bind fun more split_ => ?_
    have counted : ∀ keep : Bool,
        (if keep then (oid :: more.1, more.2) else (more.1, more.2 + 1)).1.length +
          (if keep then (oid :: more.1, more.2) else (more.1, more.2 + 1)).2 = rest.length + 1 := by
      intro keep
      cases keep <;> simp only [Bool.false_eq_true, if_true, if_false, List.length_cons] <;> omega
    exact counted _

end

/-! ### Sums -/

def sumOf : List (Counter × Nat) → Counter → Nat
  | [], _ => 0
  | (d, n) :: sums, c => (if d = c then n else 0) + sumOf sums c

@[simp] theorem sumOf_nil (c : Counter) : sumOf [] c = 0 := rfl

@[simp] theorem sumOf_cons (d : Counter) (n : Nat) (sums : List (Counter × Nat)) (c : Counter) :
    sumOf ((d, n) :: sums) c = (if d = c then n else 0) + sumOf sums c := rfl

@[simp] theorem sumOf_append (first rest : List (Counter × Nat)) (c : Counter) :
    sumOf (first ++ rest) c = sumOf first c + sumOf rest c := by
  induction first with
  | nil => simp
  | cons sum tail ih => rw [List.cons_append, sumOf_cons, ih, sumOf_cons, Nat.add_assoc]

theorem sumOf_probes (probes : List HeaderProbe) :
    sumOf (probes.flatMap probeSum) .headersPublished +
        sumOf (probes.flatMap probeSum) .oidsFailed ≤ probes.length ∧
      ∀ c, c ≠ .headersPublished → c ≠ .oidsFailed → sumOf (probes.flatMap probeSum) c = 0 := by
  induction probes with
  | nil => exact ⟨Nat.zero_le _, fun _ _ _ => rfl⟩
  | cons p rest ih =>
    obtain ⟨few, others⟩ := ih
    refine ⟨?_, fun c published failed => ?_⟩
    · cases p <;> simp [probeSum] <;> omega
    · have none := others c published failed
      cases p <;> simp [probeSum, none, Ne.symm published, Ne.symm failed]

namespace WorkerLoop

def due : WorkerLoop σ → Counter → Nat
  | .adding sums next, c => sumOf sums c + next.due c
  | _, _ => 0

/-- The calls under way, and the ids they are about. -/
def calls : WorkerLoop σ → Nat
  | .probing _ _ _ | .fetching _ _ _ => 1
  | .adding _ next => next.calls
  | _ => 0

def probingIds : WorkerLoop σ → Nat
  | .probing chunk _ _ => chunk.length
  | .adding _ next => next.probingIds
  | _ => 0

def weighingIds : WorkerLoop σ → Nat
  | .weighing chunk _ _ => chunk.length
  | .adding _ next => next.weighingIds
  | _ => 0

def fetchingIds : WorkerLoop σ → Nat
  | .fetching keep _ _ => keep.length
  | .adding _ next => next.fetchingIds
  | _ => 0

/-- The calls under way answer for their ids; the rest is not about the senders' counters. -/
def Right : WorkerLoop σ → Prop
  | .probing chunk call _ => call.Answers fun probes => probes.length = chunk.length
  | .weighing chunk call _ => call.Answers fun r => r.1.length + r.2 = chunk.length
  | .fetching keep call _ => call.Answers fun probes => probes.length = keep.length
  | .adding sums next => sumOf sums .posted = 0 ∧ sumOf sums .dropped = 0 ∧ next.Right
  | _ => True

theorem Right.due {worker : WorkerLoop σ} (right : worker.Right) :
    worker.due .posted = 0 ∧ worker.due .dropped = 0 := by
  induction worker with
  | adding sums next ih =>
    obtain ⟨posted, dropped, later⟩ := right
    have rest := ih later
    exact ⟨by rw [WorkerLoop.due, posted, rest.1], by rw [WorkerLoop.due, dropped, rest.2]⟩
  | _ => exact ⟨rfl, rfl⟩

end WorkerLoop

def Poster.counts (c : Counter) : Poster → Bool
  | .counting true _ => c = .posted
  | .counting false _ => c = .dropped
  | .sending _ => false

structure Worked (total : Counter → Nat) (h : History) (worker : WorkerLoop σ) : Prop where
  batches : total .batchesSent + worker.calls = h.asked.length + h.fetched.length
  resolved : total .oidsResolved + worker.probingIds = h.asked.flatten.length
  probes : total .headersPublished + total .oidsFailed ≤ total .oidsResolved
  skipped : total .blobsSkipped + worker.weighingIds + h.fetched.flatten.length =
    h.weighed.flatten.length
  warmed : total .blobsWarmed + worker.fetchingIds ≤ h.fetched.flatten.length

structure Books (h : History) (s : Prefetch σ) (tally : Counter → Nat) : Prop where
  shown : ∀ c, s.stats c = UInt64.ofNat (tally c)
  right : s.worker.Right
  posted : tally .posted + s.posters.countP (Poster.counts .posted) = h.accepted.length
  dropped : tally .dropped + s.posters.countP (Poster.counts .dropped) = h.refused.length
  worked : s.worker ≠ .panicked → Worked (fun c => tally c + s.worker.due c) h s.worker

section
variable {H : HydratingObjectStore (Prog σ)} {blobPrefetch : Bool} {cap : Nat}
  {outside : σ → ε → Option σ} {s t : Prefetch σ} {h : History} {tally : Counter → Nat}

def raise (tally : Counter → Nat) (c : Counter) (n : Nat) : Counter → Nat :=
  Function.update tally c (tally c + n)

theorem fetchAdd_shown (shown : ∀ c, s.stats c = UInt64.ofNat (tally c)) (c : Counter) (n : Nat) :
    ∀ d, (s.fetchAdd c n).stats d = UInt64.ofNat (raise tally c n d) := by
  intro d
  by_cases same : d = c
  · subst same
    simp only [Prefetch.fetchAdd, raise, Function.update_self, shown, UInt64.ofNat_add]
  · simp only [Prefetch.fetchAdd, raise, Function.update_of_ne same, shown]

theorem Worked.idle {worker next : WorkerLoop σ}
    (worked : Worked (fun c => tally c + worker.due c) h worker)
    (due : ∀ c, next.due c = worker.due c) (calls : next.calls = worker.calls)
    (probing : next.probingIds = worker.probingIds)
    (weighing : next.weighingIds = worker.weighingIds)
    (fetching : next.fetchingIds = worker.fetchingIds) :
    Worked (fun c => tally c + next.due c) h next := by
  obtain ⟨batches, resolved, probes, skipped, warmed⟩ := worked
  refine ⟨?_, ?_, ?_, ?_, ?_⟩ <;> simp only [due, calls, probing, weighing, fetching] <;> assumption

section
attribute [local simp] WorkerLoop.due WorkerLoop.calls WorkerLoop.probingIds
  WorkerLoop.weighingIds WorkerLoop.fetchingIds History.add

theorem worked_asked {chunk : List ObjectId} {left : List (List ObjectId)}
    (worked : Worked (fun c => tally c + (.headers (chunk :: left) : WorkerLoop σ).due c) h
      (.headers (chunk :: left) : WorkerLoop σ)) (call : Prog σ (List HeaderProbe)) :
    Worked (fun c => tally c + (WorkerLoop.probing chunk call left).due c) (h.add (.asked chunk))
      (.probing chunk call left) := by
  obtain ⟨batches, resolved, probes, skipped, warmed⟩ := worked
  constructor <;> simp at * <;> omega

theorem worked_probed {chunk : List ObjectId} {probes : List HeaderProbe}
    {left : List (List ObjectId)}
    (worked : Worked
      (fun c => tally c + (WorkerLoop.probing chunk (.ret probes) left : WorkerLoop σ).due c)
      h (.probing chunk (.ret probes) left : WorkerLoop σ)) (each : probes.length = chunk.length) :
    Worked (fun c => tally c +
        (WorkerLoop.adding (probeSums probes) (.headers left) : WorkerLoop σ).due c)
      h (.adding (probeSums probes) (.headers left) : WorkerLoop σ) := by
  obtain ⟨batches, resolved, published, skipped, warmed⟩ := worked
  obtain ⟨few, others⟩ := sumOf_probes probes
  constructor <;> simp [probeSums, others] at * <;> omega

theorem worked_weighed {chunk : List ObjectId} {left : List (List ObjectId)}
    (worked : Worked (fun c => tally c + (.blobs (chunk :: left) : WorkerLoop σ).due c) h
      (.blobs (chunk :: left) : WorkerLoop σ)) (call : Prog σ (List ObjectId × Nat)) :
    Worked (fun c => tally c + (WorkerLoop.weighing chunk call left).due c)
      (h.add (.weighed chunk)) (.weighing chunk call left) := by
  obtain ⟨batches, resolved, probes, skipped, warmed⟩ := worked
  constructor <;> simp at * <;> omega

theorem worked_nothingKept {chunk : List ObjectId} {skipped : Nat} {left : List (List ObjectId)}
    (worked : Worked
      (fun c => tally c +
        (WorkerLoop.weighing chunk (.ret ([], skipped)) left : WorkerLoop σ).due c)
      h (.weighing chunk (.ret ([], skipped)) left : WorkerLoop σ)) (all : skipped = chunk.length) :
    Worked (fun c => tally c +
        (WorkerLoop.adding [(.blobsSkipped, skipped)] (.blobs left) : WorkerLoop σ).due c)
      h (.adding [(.blobsSkipped, skipped)] (.blobs left) : WorkerLoop σ) := by
  obtain ⟨batches, resolved, probes, skipped, warmed⟩ := worked
  constructor <;> simp at * <;> omega

theorem worked_kept {chunk keep : List ObjectId} {skipped : Nat} {left : List (List ObjectId)}
    (worked : Worked
      (fun c => tally c +
        (WorkerLoop.weighing chunk (.ret (keep, skipped)) left : WorkerLoop σ).due c)
      h (.weighing chunk (.ret (keep, skipped)) left : WorkerLoop σ))
    (all : keep.length + skipped = chunk.length) (call : Prog σ (List HeaderProbe)) :
    Worked (fun c => tally c +
        (WorkerLoop.adding [(.blobsSkipped, skipped)] (.fetching keep call left)).due c)
      (h.add (.fetched keep)) (.adding [(.blobsSkipped, skipped)] (.fetching keep call left)) := by
  obtain ⟨batches, resolved, probes, skipped, warmed⟩ := worked
  constructor <;> simp at * <;> omega

theorem worked_fetched {keep : List ObjectId} {probes : List HeaderProbe}
    {left : List (List ObjectId)}
    (worked : Worked
      (fun c => tally c + (WorkerLoop.fetching keep (.ret probes) left : WorkerLoop σ).due c)
      h (.fetching keep (.ret probes) left : WorkerLoop σ)) (each : probes.length = keep.length) :
    Worked (fun c => tally c +
        (WorkerLoop.adding (fetchSums probes) (.blobs left) : WorkerLoop σ).due c)
      h (.adding (fetchSums probes) (.blobs left) : WorkerLoop σ) := by
  obtain ⟨batches, resolved, published, skipped, warmed⟩ := worked
  have few : probes.countP (fun p => !HeaderProbe.failed p) ≤ probes.length := List.countP_le_length
  constructor <;> simp [fetchSums] at * <;> omega

end

theorem raise_due (tally : Counter → Nat) (c : Counter) (n : Nat) (sums : List (Counter × Nat))
    (next : WorkerLoop σ) (d : Counter) :
    raise tally c n d + (WorkerLoop.adding sums next).due d =
      tally d + (WorkerLoop.adding ((c, n) :: sums) next).due d := by
  by_cases same : d = c
  · subst same
    simp [raise, WorkerLoop.due]
    omega
  · simp [raise, WorkerLoop.due, Function.update_of_ne same, Ne.symm same]

theorem raise_other {c d : Counter} {n : Nat} (nothing : (if c = d then n else 0) = 0) :
    raise tally c n d = tally d := by
  by_cases same : d = c
  · subst same
    rw [if_pos rfl] at nothing
    simp [raise, nothing]
  · exact Function.update_of_ne same _ _

theorem Works.books {seen : Option Deed} (works : Works (storeCalls H) cap s seen t)
    (books : Books h s tally) :
    ∃ tally', Books (seen.elim h h.add) t tally' := by
  have worked := books.worked works.running
  obtain ⟨shown, right, posted, dropped, -⟩ := books
  cases works with
  | @received task rest at_ next =>
    rw [at_] at worked
    refine ⟨tally, shown, by cases task <;> exact trivial, posted, dropped, fun _ => ?_⟩
    have same : Worked (fun c => tally c + (WorkerLoop.start task : WorkerLoop σ).due c) h
        (WorkerLoop.start task : WorkerLoop σ) := by
      cases task <;> exact worked.idle (fun _ => rfl) rfl rfl rfl rfl
    exact ⟨same.batches, same.resolved, same.probes, same.skipped, same.warmed⟩
  | @asked chunk left at_ =>
    rw [at_] at worked
    exact ⟨tally, shown, prefetchHeaders_answers H chunk, posted, dropped,
      fun _ => worked_asked worked _⟩
  | @probed chunk probes left at_ =>
    rw [at_] at worked right
    obtain ⟨-, others⟩ := sumOf_probes probes
    refine ⟨tally, shown, ⟨?_, ?_, trivial⟩, posted, dropped, fun _ => worked_probed worked right⟩
    · simp [probeSums, others]
    · simp [probeSums, others]
  | @weighed chunk left at_ =>
    rw [at_] at worked
    exact ⟨tally, shown, blobsUnderCap_answers H cap chunk, posted, dropped,
      fun _ => worked_weighed worked _⟩
  | @nothingKept chunk skipped left at_ =>
    rw [at_] at worked right
    have all : skipped = chunk.length := by simpa [WorkerLoop.Right, Prog.Answers] using right
    exact ⟨tally, shown, ⟨rfl, rfl, trivial⟩, posted, dropped,
      fun _ => worked_nothingKept worked all⟩
  | @kept chunk keep skipped left at_ some_ =>
    rw [at_] at worked right
    exact ⟨tally, shown, ⟨rfl, rfl, fetchObjects_answers H keep⟩, posted, dropped,
      fun _ => worked_kept worked right _⟩
  | @fetched keep probes left at_ =>
    rw [at_] at worked right
    exact ⟨tally, shown, ⟨rfl, rfl, trivial⟩, posted, dropped, fun _ => worked_fetched worked right⟩
  | @adds c n sums next at_ =>
    rw [at_] at worked right
    obtain ⟨noPosted, noDropped, later⟩ := right
    rw [sumOf_cons, Nat.add_eq_zero_iff] at noPosted noDropped
    refine ⟨raise tally c n, fetchAdd_shown shown c n, ⟨noPosted.2, noDropped.2, later⟩, ?_, ?_,
      fun _ => ?_⟩
    · rw [raise_other noPosted.1]
      exact posted
    · rw [raise_other noDropped.1]
      exact dropped
    · simp only [raise_due]
      exact ⟨worked.batches, worked.resolved, worked.probes, worked.skipped, worked.warmed⟩
  | hungUp at_ empty closed =>
    rw [at_] at worked
    exact ⟨tally, shown, trivial, posted, dropped,
      fun _ => worked.idle (fun _ => rfl) rfl rfl rfl rfl⟩
  | headersDone at_ =>
    rw [at_] at worked
    exact ⟨tally, shown, trivial, posted, dropped,
      fun _ => worked.idle (fun _ => rfl) rfl rfl rfl rfl⟩
  | blobsDone at_ =>
    rw [at_] at worked
    exact ⟨tally, shown, trivial, posted, dropped,
      fun _ => worked.idle (fun _ => rfl) rfl rfl rfl rfl⟩
  | probing at_ moved =>
    rw [at_] at worked right
    exact ⟨tally, shown, right _, posted, dropped,
      fun _ => worked.idle (fun _ => rfl) rfl rfl rfl rfl⟩
  | weighing at_ moved =>
    rw [at_] at worked right
    exact ⟨tally, shown, right _, posted, dropped,
      fun _ => worked.idle (fun _ => rfl) rfl rfl rfl rfl⟩
  | fetching at_ moved =>
    rw [at_] at worked right
    exact ⟨tally, shown, right _, posted, dropped,
      fun _ => worked.idle (fun _ => rfl) rfl rfl rfl rfl⟩
  | added at_ =>
    rw [at_] at worked right
    exact ⟨tally, shown, right.2.2, posted, dropped,
      fun _ => worked.idle (fun _ => by simp [WorkerLoop.due]) rfl rfl rfl rfl⟩

theorem countP_set {posters : List Poster} {i : Nat} {old : Poster}
    (found : posters[i]? = some old) (new : Poster) (p : Poster → Bool) :
    (posters.set i new).countP p + (p old).toNat = posters.countP p + (p new).toNat := by
  induction posters generalizing i with
  | nil => cases found
  | cons first rest ih =>
    cases i with
    | zero =>
      cases found
      cases held : p old <;> cases now : p new <;> simp [held, now]
    | succ i =>
      have later := ih (i := i) found
      cases held : p first <;> simp [held] <;> omega

theorem trySend_books {i : Nat} (moved : trySend s i = some t) (books : Books h s tally) :
    Books ((deed s (.trySend i : Action ε)).elim h h.add) t tally := by
  obtain ⟨shown, right, posted, dropped, worked⟩ := books
  obtain ⟨task, rest, found, ⟨seen, there, room, rfl⟩ | ⟨seen, rfl⟩⟩ := trySend_cases (ε := ε) moved
  · rw [seen]
    have sent := countP_set found (.counting true rest) (Poster.counts .posted)
    have lost := countP_set found (.counting true rest) (Poster.counts .dropped)
    refine ⟨shown, right, ?_, ?_, fun running => ?_⟩
    · simp [Poster.counts, History.add, Prefetch.setPoster] at sent ⊢
      omega
    · simp [Poster.counts, History.add, Prefetch.setPoster] at lost ⊢
      omega
    · obtain ⟨batches, resolved, probes, skipped, warmed⟩ := worked running
      exact ⟨batches, resolved, probes, skipped, warmed⟩
  · rw [seen]
    have sent := countP_set found (.counting false rest) (Poster.counts .posted)
    have lost := countP_set found (.counting false rest) (Poster.counts .dropped)
    refine ⟨shown, right, ?_, ?_, fun running => ?_⟩
    · simp [Poster.counts, History.add, Prefetch.setPoster] at sent ⊢
      omega
    · simp [Poster.counts, History.add, Prefetch.setPoster] at lost ⊢
      omega
    · obtain ⟨batches, resolved, probes, skipped, warmed⟩ := worked running
      exact ⟨batches, resolved, probes, skipped, warmed⟩

theorem count_books {i : Nat} (moved : count s i = some t) (books : Books h s tally) :
    ∃ tally', Books h t tally' := by
  obtain ⟨shown, right, posted, dropped, worked⟩ := books
  obtain ⟨sent, rest, found, rfl⟩ := count_cases moved
  refine ⟨raise tally (if sent then .posted else .dropped) 1, fetchAdd_shown shown _ 1, right,
    ?_, ?_, fun running => ?_⟩
  · have held := countP_set found (.sending rest) (Poster.counts .posted)
    cases sent <;>
      simp [Poster.counts, Prefetch.setPoster, Prefetch.fetchAdd, raise] at held ⊢ <;> omega
  · have held := countP_set found (.sending rest) (Poster.counts .dropped)
    cases sent <;>
      simp [Poster.counts, Prefetch.setPoster, Prefetch.fetchAdd, raise] at held ⊢ <;> omega
  · obtain ⟨batches, resolved, probes, skipped, warmed⟩ := worked running
    have others : ∀ c, c ≠ .posted → c ≠ .dropped →
        raise tally (if sent then .posted else .dropped) 1 c = tally c := by
      intro c first second
      cases sent
      · exact Function.update_of_ne second _ _
      · exact Function.update_of_ne first _ _
    constructor <;> simp only [ne_eq, reduceCtorEq, not_false_eq_true, others] <;> assumption

theorem step_books {a : Action ε} (moved : step (storeCalls H) blobPrefetch cap outside s a = some t)
    (books : Books h s tally) : ∃ tally', Books ((deed s a).elim h h.add) t tally' := by
  cases a with
  | post oids =>
    simp only [step] at moved
    split at moved <;> cases moved
    obtain ⟨shown, right, posted, dropped, worked⟩ := books
    refine ⟨tally, shown, right, ?_, ?_, worked⟩
    · simpa [Poster.counts, deed] using posted
    · simpa [Poster.counts, deed] using dropped
  | trySend i => exact ⟨tally, trySend_books moved books⟩
  | count i => exact count_books moved books
  | work => exact (work_cases moved).books books
  | panic =>
    obtain rfl := panic_cases moved
    exact ⟨tally, books.shown, trivial, books.posted, books.dropped,
      fun running => absurd rfl running⟩
  | close =>
    simp only [step] at moved
    split at moved <;> cases moved
    exact ⟨tally, books.shown, books.right, books.posted, books.dropped, books.worked⟩
  | join =>
    simp only [step] at moved
    split at moved <;> cases moved
    exact ⟨tally, books.shown, books.right, books.posted, books.dropped, books.worked⟩
  | outside e =>
    obtain ⟨store, ran, rfl⟩ := Option.map_eq_some_iff.mp moved
    exact ⟨tally, books.shown, books.right, books.posted, books.dropped, books.worked⟩

/-- In every run and for every fetcher, up to the wrapping of 64 bits: each task that was
    offered is counted once as posted or dropped, and while the worker rests its counters say
    how many batches were sent, that one probe came for each id of the header tasks it took, and
    that each id of the blob tasks was skipped or fetched. -/
theorem statistics_add_up {store : σ} {acts : List (Action ε)}
    (run : exec (step (storeCalls H) blobPrefetch cap outside) (.spawn store) acts = some s) :
    ∃ tally : Counter → Nat, (∀ c, s.stats c = UInt64.ofNat (tally c)) ∧
      let h := history (storeCalls H) blobPrefetch cap outside store acts
      tally .posted + s.posters.countP (Poster.counts .posted) = h.accepted.length ∧
      tally .dropped + s.posters.countP (Poster.counts .dropped) = h.refused.length ∧
      (s.worker.resting = true →
        tally .batchesSent = h.asked.length + h.fetched.length ∧
        tally .oidsResolved = (headerOids h.taken).length ∧
        tally .headersPublished + tally .oidsFailed ≤ tally .oidsResolved ∧
        tally .blobsSkipped + h.fetched.flatten.length = (blobOids h.taken).length ∧
        tally .blobsWarmed ≤ h.fetched.flatten.length) := by
  have keeps : ∀ log u a v, step (storeCalls H) blobPrefetch cap outside u a = some v →
      (∃ tally, Books (.of log) u tally) →
      ∃ tally, Books (.of (log ++ (deed u a).toList)) v tally := by
    rintro log u a v moved ⟨tally, books⟩
    rw [history_snoc]
    exact step_books moved books
  have start : ∃ tally, Books (.of []) (.spawn store : Prefetch σ) tally := by
    refine ⟨fun _ => 0, fun _ => rfl, trivial, rfl, rfl, fun _ => ?_⟩
    exact ⟨rfl, rfl, Nat.le_refl _, rfl, Nat.le_refl _⟩
  obtain ⟨tally, shown, right, posted, dropped, worked⟩ := exec_keeps_seen keeps run start
  obtain ⟨-, -, headers, blobs, -⟩ := run_inOrder run
  refine ⟨tally, shown, posted, dropped, fun resting => ?_⟩
  cases at_ : s.worker with
  | receiving | exited =>
    rw [at_] at worked headers blobs
    obtain ⟨batches, resolved, probes, skipped, warmed⟩ := worked (by simp)
    rw [headers.exact (by simp), blobs.exact (by simp)]
    simp only [WorkerLoop.toAsk, WorkerLoop.toWeigh, WorkerLoop.due, WorkerLoop.calls,
      WorkerLoop.probingIds, WorkerLoop.weighingIds, WorkerLoop.fetchingIds, List.flatten_nil,
      List.append_nil, Nat.add_zero] at batches resolved probes skipped warmed ⊢
    exact ⟨batches, resolved, probes, skipped, warmed⟩
  | _ =>
    rw [at_] at resting
    cases resting

end
theorem drained_result :
    ((exec emptyStep (.spawn noCaches) (postAndDrop ++ drainAll)).map fun s =>
      (s.worker.resting, s.stats .oidsResolved, s.stats .blobsWarmed)) = some (true, 1, 1) := by
  decide +kernel

theorem drained_statistics :
    ∃ s, ∃ tally : Counter → Nat,
      exec emptyStep (.spawn noCaches) (postAndDrop ++ drainAll) = some s ∧
      (∀ c, s.stats c = UInt64.ofNat (tally c)) ∧ tally .oidsResolved =
        (headerOids
          (history (storeCalls emptyStore) true 100 noEvents noCaches
            (postAndDrop ++ drainAll)).taken).length := by
  obtain ⟨s, run, shape⟩ := Option.map_eq_some_iff.mp drained_result
  obtain ⟨tally, shown, -, -, resting⟩ := statistics_add_up run
  exact ⟨s, tally, run, shown, (resting (Prod.mk.inj shape).1).2.1⟩

end ProjgitPrefetch

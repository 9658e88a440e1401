import Mathlib.Data.List.Basic

/- Runs of a partial labelled step function. A run is the list of labels taken;
   every statement about reachable states is an induction over that list. -/
namespace LabelledRuns
universe u v
variable {S : Type u} {A : Type v}

def exec (step : S → A → Option S) : S → List A → Option S
  | s, [] => some s
  | s, a :: rest => (step s a).bind fun t => exec step t rest

/-- Every step of the run meets a condition on the state it starts in and its label. -/
def Meets (step : S → A → Option S) (allowed : S → A → Prop) : S → List A → Prop
  | _, [] => True
  | s, a :: rest => allowed s a ∧ ∀ t, step s a = some t → Meets step allowed t rest

def Along (step : S → A → Option S) (holds : S → Prop) : S → List A → Prop
  | s, [] => holds s
  | s, a :: rest => holds s ∧ ∀ t, step s a = some t → Along step holds t rest

variable {step : S → A → Option S} {allowed : S → A → Prop} {inv : S → Prop}

theorem exec_cons {s t : S} {a : A} {rest : List A} (run : exec step s (a :: rest) = some t) :
    ∃ mid, step s a = some mid ∧ exec step mid rest = some t := by
  simpa [exec, Option.bind_eq_some_iff] using run

theorem exec_append (s : S) (before after : List A) :
    exec step s (before ++ after) = (exec step s before).bind fun t => exec step t after := by
  induction before generalizing s with
  | nil => rfl
  | cons a rest ih =>
    simp only [List.cons_append, exec, Option.bind_assoc]
    congr 1
    funext t
    exact ih t

theorem exec_append_some {s t : S} {before after : List A}
    (run : exec step s (before ++ after) = some t) :
    ∃ mid, exec step s before = some mid ∧ exec step mid after = some t := by
  rw [exec_append, Option.bind_eq_some_iff] at run
  exact run

theorem exec_keeps (keeps : ∀ s a t, step s a = some t → inv s → inv t)
    {s t : S} {labels : List A} (run : exec step s labels = some t) (start : inv s) : inv t := by
  induction labels generalizing s with
  | nil => simpa [exec] using (Option.some.inj run) ▸ start
  | cons a rest ih =>
    obtain ⟨mid, first, tail⟩ := exec_cons run
    exact ih tail (keeps s a mid first start)

theorem exec_keeps_meeting
    (keeps : ∀ s a t, step s a = some t → allowed s a → inv s → inv t)
    {s t : S} {labels : List A} (run : exec step s labels = some t)
    (meets : Meets step allowed s labels) (start : inv s) : inv t := by
  induction labels generalizing s with
  | nil => simpa [exec] using (Option.some.inj run) ▸ start
  | cons a rest ih =>
    obtain ⟨mid, first, tail⟩ := exec_cons run
    exact ih tail (meets.2 mid first) (keeps s a mid first meets.1 start)

theorem meets_append {s mid : S} {before after : List A}
    (run : exec step s before = some mid) (meets : Meets step allowed s (before ++ after)) :
    Meets step allowed s before ∧ Meets step allowed mid after := by
  induction before generalizing s with
  | nil =>
    cases Option.some.inj run
    exact ⟨trivial, meets⟩
  | cons a rest ih =>
    obtain ⟨next, first, tail⟩ := exec_cons run
    have later := ih tail (meets.2 next first)
    refine ⟨⟨meets.1, fun t same => ?_⟩, later.2⟩
    cases first.symm.trans same
    exact later.1

theorem meets_of_forall {good : A → Prop} {labels : List A} (each : ∀ a ∈ labels, good a)
    (s : S) : Meets step (fun _ a => good a) s labels := by
  induction labels generalizing s with
  | nil => trivial
  | cons a rest ih =>
    refine ⟨each a (by simp), fun t _ => ih (fun b member => each b (by simp [member])) t⟩

theorem meets_of_each {s : S} {labels : List A}
    (each : ∀ before a after mid, labels = before ++ a :: after →
      exec step s before = some mid → allowed mid a) : Meets step allowed s labels := by
  induction labels generalizing s with
  | nil => trivial
  | cons a rest ih =>
    refine ⟨each [] a rest s rfl rfl, fun t taken => ih ?_⟩
    intro before b after mid same run
    refine each (a :: before) b after mid (by rw [same, List.cons_append]) ?_
    simpa [exec, taken] using run

/-- What there is to see at the steps of a run, in order. -/
def seen {B : Type} (step : S → A → Option S) (see : S → A → Option B) : S → List A → List B
  | _, [] => []
  | s, a :: rest => (see s a).toList ++
    match step s a with
    | some t => seen step see t rest
    | none => []

theorem mem_seen {B : Type} {see : S → A → Option B} {b : B} {s : S} {labels : List A} :
    b ∈ seen step see s labels ↔ ∃ before a after mid, labels = before ++ a :: after ∧
      exec step s before = some mid ∧ see mid a = some b := by
  induction labels generalizing s with
  | nil => simp [seen]
  | cons a rest ih =>
    constructor
    · intro member
      rcases List.mem_append.mp member with here | later
      · exact ⟨[], a, rest, s, rfl, rfl, by simpa using here⟩
      · cases taken : step s a with
        | none => simp [taken] at later
        | some t =>
          rw [taken] at later
          obtain ⟨before, c, after, mid, rfl, run, shown⟩ := ih.mp later
          exact ⟨a :: before, c, after, mid, rfl, by simp [exec, taken, run], shown⟩
    · rintro ⟨before, c, after, mid, same, run, shown⟩
      apply List.mem_append.mpr
      cases before with
      | nil =>
        cases Option.some.inj run
        cases same
        exact Or.inl (by simp [shown])
      | cons first before =>
        cases same
        obtain ⟨t, taken, tail⟩ := exec_cons run
        rw [taken]
        exact Or.inr (ih.mpr ⟨before, c, after, mid, rfl, tail, shown⟩)

theorem meets_seen {B : Type} (see : S → A → Option B) (s : S) (labels : List A) :
    Meets step (fun mid a => ∀ b, see mid a = some b → b ∈ seen step see s labels) s labels :=
  meets_of_each fun before a after mid same run _ shown =>
    mem_seen.mpr ⟨before, a, after, mid, same, run, shown⟩

theorem seen_append {B : Type} {see : S → A → Option B} {s mid : S} {before : List A}
    (run : exec step s before = some mid) (after : List A) :
    seen step see s (before ++ after) = seen step see s before ++ seen step see mid after := by
  induction before generalizing s with
  | nil =>
    cases Option.some.inj run
    rfl
  | cons a rest ih =>
    obtain ⟨next, first, tail⟩ := exec_cons run
    simp only [List.cons_append, seen, first, ih tail, List.append_assoc]

/-- A property of the state together with what was seen so far. -/
theorem exec_keeps_seen {B : Type} {see : S → A → Option B} {holds : List B → S → Prop}
    (keeps : ∀ log s a t, step s a = some t → holds log s → holds (log ++ (see s a).toList) t)
    {s t : S} {labels : List A} (run : exec step s labels = some t) (start : holds [] s) :
    holds (seen step see s labels) t := by
  have grown : ∀ log s, exec step s labels = some t → holds log s →
      holds (log ++ seen step see s labels) t := by
    clear run start s
    induction labels with
    | nil =>
      intro log s run start
      cases Option.some.inj run
      simpa [seen] using start
    | cons a rest ih =>
      intro log s run start
      obtain ⟨mid, first, tail⟩ := exec_cons run
      have later := ih (log ++ (see s a).toList) mid tail (keeps log s a mid first start)
      simpa [seen, first, List.append_assoc] using later
  exact grown [] s run start

/-- What is seen of one kind is paid for by what is seen of another and by a stock. -/
theorem seen_pays {B C : Type} (see : S → A → Option B) (pay : S → A → Option C)
    (stock : S → Nat) (price : Nat)
    (keeps : ∀ s a t, step s a = some t → inv s → inv t)
    (each : ∀ s a t, step s a = some t → inv s →
      price * (see s a).toList.length + stock t ≤ (pay s a).toList.length + stock s)
    {s t : S} {labels : List A} (run : exec step s labels = some t) (start : inv s) :
    price * (seen step see s labels).length + stock t ≤
      (seen step pay s labels).length + stock s := by
  induction labels generalizing s with
  | nil =>
    cases Option.some.inj run
    simp [seen]
  | cons a rest ih =>
    obtain ⟨mid, first, tail⟩ := exec_cons run
    have later := ih tail (keeps s a mid first start)
    have now := each s a mid first start
    simp only [seen, first, List.length_append, Nat.mul_add]
    omega

theorem meets_map {B : Type} {f : B → A} {s : S} {labels : List B}
    (meets : Meets step allowed s (labels.map f)) :
    Meets (fun s b => step s (f b)) (fun s b => allowed s (f b)) s labels := by
  induction labels generalizing s with
  | nil => trivial
  | cons b rest ih => exact ⟨meets.1, fun t taken => ih (meets.2 t taken)⟩

theorem meets_and {other : S → A → Prop} {s : S} {labels : List A}
    (first : Meets step allowed s labels) (second : Meets step other s labels) :
    Meets step (fun s a => allowed s a ∧ other s a) s labels := by
  induction labels generalizing s with
  | nil => trivial
  | cons a rest ih =>
    exact ⟨⟨first.1, second.1⟩, fun t taken => ih (first.2 t taken) (second.2 t taken)⟩

/-- The last step of a nonempty run, for inductions from the end. -/
theorem exec_snoc {s t : S} {labels : List A} {a : A}
    (run : exec step s (labels ++ [a]) = some t) :
    ∃ mid, exec step s labels = some mid ∧ step mid a = some t := by
  obtain ⟨mid, before, last⟩ := exec_append_some run
  obtain ⟨next, taken, rest⟩ := exec_cons last
  cases Option.some.inj rest
  exact ⟨mid, before, taken⟩

theorem along_suffix {holds : S → Prop} {s mid : S} {before after : List A}
    (run : exec step s before = some mid) (along : Along step holds s (before ++ after)) :
    Along step holds mid after := by
  induction before generalizing s with
  | nil => cases Option.some.inj run; exact along
  | cons a rest ih =>
    obtain ⟨next, first, tail⟩ := exec_cons run
    exact ih tail (along.2 next first)

theorem along_start {holds : S → Prop} {s : S} {labels : List A}
    (along : Along step holds s labels) : holds s := by
  cases labels with
  | nil => exact along
  | cons a rest => exact along.1

theorem along_of_keeps (inv : S → Prop) {holds : S → Prop}
    (keeps : ∀ s a t, step s a = some t → allowed s a → inv s → inv t)
    (gives : ∀ s, inv s → holds s) {s : S} {labels : List A}
    (meets : Meets step allowed s labels) (start : inv s) : Along step holds s labels := by
  induction labels generalizing s with
  | nil => exact gives s start
  | cons a rest ih =>
    exact ⟨gives s start, fun t taken => ih (meets.2 t taken) (keeps s a t taken meets.1 start)⟩

/-- A machine that answers each call: the answers in order, and the state they leave. -/
def answers {R : Type} (serve : S → A → R × S) : S → List A → List R × S
  | s, [] => ([], s)
  | s, a :: rest =>
    let later := answers serve (serve s a).2 rest
    ((serve s a).1 :: later.1, later.2)

theorem answers_snoc {R : Type} (serve : S → A → R × S) (s : S) (calls : List A) (a : A) :
    answers serve s (calls ++ [a]) =
      ((answers serve s calls).1 ++ [(serve (answers serve s calls).2 a).1],
        (serve (answers serve s calls).2 a).2) := by
  induction calls generalizing s with
  | nil => rfl
  | cons first rest ih => simp only [List.cons_append, answers, ih]

theorem answers_length {R : Type} (serve : S → A → R × S) (s : S) (calls : List A) :
    (answers serve s calls).1.length = calls.length := by
  induction calls generalizing s with
  | nil => rfl
  | cons first rest ih => simp [answers, ih]

theorem answers_getElem? {R : Type} (serve : S → A → R × S) (s : S) (calls : List A) (i : Nat) :
    (answers serve s calls).1[i]? =
      calls[i]?.map fun a => (serve (answers serve s (calls.take i)).2 a).1 := by
  induction calls generalizing s i with
  | nil => rfl
  | cons a rest ih =>
    cases i with
    | zero => rfl
    | succ i => exact ih (serve s a).2 i

theorem answers_agree {R T : Type} {serve : S → A → R × S} {serve' : T → A → R × T}
    (rel : S → T → Prop)
    (each : ∀ s t a, rel s t →
      (serve s a).1 = (serve' t a).1 ∧ rel (serve s a).2 (serve' t a).2)
    {s : S} {t : T} (start : rel s t) (calls : List A) :
    (answers serve s calls).1 = (answers serve' t calls).1 ∧
      rel (answers serve s calls).2 (answers serve' t calls).2 := by
  induction calls generalizing s t with
  | nil => exact ⟨rfl, start⟩
  | cons a rest ih =>
    obtain ⟨reply, next⟩ := each s t a start
    obtain ⟨replies, last⟩ := ih next
    refine ⟨?_, last⟩
    simp only [answers, reply, replies]

end LabelledRuns

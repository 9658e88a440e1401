import Mathlib.Data.List.Induction
import Projgit.Lib.Runs

/- Threads over shared memory. A program is a tree of atomic actions, each of which may
   block; a pool interleaves any number of programs with events from outside. Programs
   are verified one at a time under a discipline: an invariant of the shared state and a
   preorder that every action and every event respects, so that what a thread has learnt
   stays true while others move. -/
namespace Interleave
open LabelledRuns

/-- `act` answers `none` while the action has to wait. -/
inductive Prog (σ α : Type) : Type 1 where
  | ret (a : α)
  | atom {β : Type} (act : σ → Option (β × σ)) (next : β → Prog σ α)

variable {σ τ α β ε ε' : Type}

def Prog.bind : Prog σ α → (α → Prog σ β) → Prog σ β
  | .ret a, f => f a
  | .atom act next, f => .atom act fun b => (next b).bind f

instance : Monad (Prog σ) where
  pure := .ret
  bind := .bind

theorem Prog.bind_ret (x : Prog σ α) : x.bind .ret = x := by
  induction x with
  | ret a => rfl
  | atom act next ih => exact congrArg (Prog.atom act) (funext ih)

theorem Prog.bind_assoc {γ : Type} (x : Prog σ α) (f : α → Prog σ β) (g : β → Prog σ γ) :
    (x.bind f).bind g = x.bind fun a => (f a).bind g := by
  induction x with
  | ret a => rfl
  | atom act next ih => exact congrArg (Prog.atom act) (funext ih)

instance : LawfulMonad (Prog σ) :=
  LawfulMonad.mk' (Prog σ) Prog.bind_ret (fun _ _ => rfl) Prog.bind_assoc

def await (act : σ → Option (α × σ)) : Prog σ α := .atom act .ret

instance : MonadLift (StateM σ) (Prog σ) where
  monadLift x := await fun s => some (x.run s)

/-- The program with no other thread around; `none` if it has to wait. -/
def Prog.alone : Prog σ α → σ → Option (α × σ)
  | .ret a, s => some (a, s)
  | .atom act next, s => (act s).bind fun r => (next r.1).alone r.2

@[simp] theorem alone_pure (a : α) (s : σ) : (pure a : Prog σ α).alone s = some (a, s) := rfl

@[simp] theorem alone_await (act : σ → Option (α × σ)) (s : σ) : (await act).alone s = act s := by
  change ((act s).bind fun r => some (r.1, r.2)) = act s
  cases act s <;> rfl

@[simp] theorem alone_lift (x : StateM σ α) (s : σ) :
    (liftM x : Prog σ α).alone s = some (x.run s) := rfl

@[simp] theorem alone_bind (x : Prog σ α) (f : α → Prog σ β) (s : σ) :
    (x >>= f).alone s = (x.alone s).bind fun r => (f r.1).alone r.2 := by
  induction x generalizing s with
  | ret a => rfl
  | atom act next ih =>
    change ((act s).bind fun r => ((next r.1).bind f).alone r.2) =
      ((act s).bind fun r => (next r.1).alone r.2).bind _
    rw [Option.bind_assoc]
    congr 1
    funext r
    exact ih r.1 r.2

@[simp] theorem alone_map (f : α → β) (x : Prog σ α) (s : σ) :
    (f <$> x).alone s = (x.alone s).map fun r => (f r.1, r.2) := by
  rw [← bind_pure_comp, alone_bind]
  cases x.alone s <;> rfl

/-- A program on one component of a larger state, action by action. -/
def Prog.zoom (get : τ → σ) (set : τ → σ → τ) : Prog σ α → Prog τ α
  | .ret a => .ret a
  | .atom act next =>
    .atom (fun t => (act (get t)).map fun r => (r.1, set t r.2)) fun b => (next b).zoom get set

def Prog.Answers (good : α → Prop) : Prog σ α → Prop
  | .ret a => good a
  | .atom _ next => ∀ b, (next b).Answers good

theorem answers_any (x : Prog σ α) : x.Answers fun _ => True := by
  induction x with
  | ret a => exact trivial
  | atom act next ih => exact ih

theorem Prog.Answers.bind {x : Prog σ α} {f : α → Prog σ β} {good : α → Prop} {fine : β → Prop}
    (first : x.Answers good) (rest : ∀ a, good a → (f a).Answers fine) :
    (x >>= f).Answers fine := by
  induction x with
  | ret a => exact rest a first
  | atom act next ih => exact fun b => ih b (first b)

/-- The action that brings the program to its answer leaves the two in `good`. -/
def Prog.Ends (good : α → σ → Prop) : Prog σ α → Prop
  | .ret _ => True
  | .atom act next => (∀ s b t, act s = some (b, t) → ∀ a, next b = .ret a → good a t) ∧
      ∀ b, (next b).Ends good

theorem Prog.Ends.bind {x : Prog σ α} {f : α → Prog σ β} {good : β → σ → Prop}
    (first : x.Ends fun a t => ∀ b, f a = .ret b → good b t) (rest : ∀ a, (f a).Ends good) :
    (x >>= f).Ends good := by
  induction x with
  | ret a => exact rest a
  | atom act next ih =>
    refine ⟨fun s b t ran c ended => ?_, fun b => ih b (first.2 b)⟩
    have last : (next b).bind f = .ret c := ended
    cases after : next b with
    | ret a =>
      rw [after] at last
      exact first.1 s b t ran a after c last
    | atom act' next' =>
      rw [after] at last
      cases last

theorem ends_of_answers {x : Prog σ α} {fine : α → Prop} {good : α → σ → Prop}
    (answers : x.Answers fine) (each : ∀ a t, fine a → good a t) : x.Ends good := by
  induction x with
  | ret a => trivial
  | atom act next ih =>
    refine ⟨fun s b t _ a last => each a t ?_, fun b => ih b (answers b)⟩
    have told := answers b
    rw [last] at told
    exact told

theorem Prog.Answers.runBind {x : ExceptT ε (Prog σ) α} {f : α → ExceptT ε (Prog σ) β}
    {good : Except ε α → Prop} {fine : Except ε β → Prop} (first : x.run.Answers good)
    (failed : ∀ e, good (.error e) → fine (.error e))
    (rest : ∀ a, good (.ok a) → (f a).run.Answers fine) : (x >>= f).run.Answers fine := by
  rw [ExceptT.run_bind]
  refine first.bind fun r known => ?_
  cases r with
  | error e => exact failed e known
  | ok a => exact rest a known

theorem Prog.Ends.runBind {x : ExceptT ε (Prog σ) α} {f : α → ExceptT ε (Prog σ) β}
    {good : Except ε β → σ → Prop} {fine : Except ε α → Prop} (first : x.run.Answers fine)
    (failed : ∀ e t, fine (.error e) → good (.error e) t)
    (goesOn : ∀ a r, (f a).run ≠ .ret r) (rest : ∀ a, (f a).run.Ends good) :
    (x >>= f).run.Ends good := by
  rw [ExceptT.run_bind]
  refine Prog.Ends.bind (ends_of_answers first fun r t known b ended => ?_) fun r => ?_
  · cases r with
    | error e =>
      cases ended
      exact failed e t known
    | ok a => exact absurd ended (goesOn a b)
  · cases r with
    | error e => trivial
    | ok a => exact rest a

theorem Prog.Answers.runAdapt {x : ExceptT ε (Prog σ) α} {f : ε → ε'} {good : Except ε α → Prop}
    {fine : Except ε' α → Prop} (first : x.run.Answers good)
    (implies : ∀ r, good r → fine (r.mapError f)) : (ExceptT.adapt f x).run.Answers fine := by
  refine Prog.Answers.bind (f := fun r => pure (r.mapError f)) first fun r known => ?_
  exact implies r known

theorem Prog.Ends.runLift {x : Prog σ α} {f : α → ExceptT ε (Prog σ) β}
    {good : Except ε β → σ → Prop} (first : x.Ends fun a t => ∀ b, (f a).run = .ret b → good b t)
    (rest : ∀ a, (f a).run.Ends good) :
    ((liftM x : ExceptT ε (Prog σ) α) >>= f).run.Ends good := by
  have inline : ((liftM x : ExceptT ε (Prog σ) α) >>= f).run = x >>= fun a => (f a).run :=
    ExceptT.run_bind_lift x f
  rw [inline]
  exact Prog.Ends.bind first rest

def Prog.noting {L : Type} (entry : L) (x : Prog σ α) : Prog (σ × List L) α :=
  .atom (fun s => some ((), s.1, s.2 ++ [entry])) fun _ => x.zoom Prod.fst fun t s => (s, t.2)

/-- Whatever the program finds, by its end it has entered exactly this. -/
def Prog.Enters {L : Type} : Prog (σ × List L) α → List L → Prop
  | .ret _, entries => entries = []
  | .atom act next, entries => ∃ now later, entries = now ++ later ∧
      (∀ s b t, act s = some (b, t) → t.2 = s.2 ++ now) ∧ ∀ b, (next b).Enters later

theorem enters_zoom {L : Type} (x : Prog σ α) :
    (x.zoom Prod.fst fun (t : σ × List L) s => (s, t.2)).Enters [] := by
  induction x with
  | ret a => exact rfl
  | atom act next ih =>
    refine ⟨[], [], rfl, fun s b t ran => ?_, ih⟩
    obtain ⟨r, -, same⟩ := Option.map_eq_some_iff.mp ran
    cases same
    rw [List.append_nil]

theorem enters_noting {L : Type} (entry : L) (x : Prog σ α) : (x.noting entry).Enters [entry] := by
  refine ⟨[entry], [], rfl, fun s b t ran => ?_, fun _ => enters_zoom x⟩
  cases ran
  rfl

theorem Prog.Enters.bind {L : Type} {x : Prog (σ × List L) α} {f : α → Prog (σ × List L) β}
    {first later : List L} (enters : x.Enters first) (rest : ∀ a, (f a).Enters later) :
    (x >>= f).Enters (first ++ later) := by
  induction x generalizing first with
  | ret a =>
    cases enters
    exact rest a
  | atom act next ih =>
    obtain ⟨now, after, rfl, does, goes⟩ := enters
    exact ⟨now, after ++ later, List.append_assoc .., does, fun b => ih b (goes b)⟩

structure Discipline (σ : Type) where
  inv : σ → Prop
  rely : σ → σ → Prop
  refl : ∀ s, rely s s
  trans : ∀ {s t u}, rely s t → rely t u → rely s u

/-- Nothing is known of the other threads. -/
def Discipline.anyone (σ : Type) : Discipline σ :=
  ⟨fun _ => True, fun _ _ => True, fun _ => trivial, fun _ _ => trivial⟩

/-- From `s`, with other threads acting between any two actions of the program, every
    action keeps the discipline and the answer satisfies `post` from then on. -/
def Ensures (D : Discipline σ) : Prog σ α → σ → (α → σ → Prop) → Prop
  | .ret a, s, post => ∀ t, D.rely s t → D.inv t → post a t
  | .atom act next, s, post => ∀ t, D.rely s t → D.inv t → ∀ b u, act t = some (b, u) →
      D.rely t u ∧ D.inv u ∧ Ensures D (next b) u post

section
variable {D : Discipline σ} {s t : σ}

theorem ensures_ret {a : α} {post : α → σ → Prop}
    (holds : ∀ t, D.rely s t → D.inv t → post a t) :
    Ensures D (pure a : Prog σ α) s post := holds

theorem ensures_await {act : σ → Option (α × σ)} {post : α → σ → Prop}
    (each : ∀ t, D.rely s t → D.inv t → ∀ a u, act t = some (a, u) →
      D.rely t u ∧ D.inv u ∧ ∀ v, D.rely u v → D.inv v → post a v) :
    Ensures D (await act) s post := each

theorem ensures_lift {x : StateM σ α} {post : α → σ → Prop}
    (each : ∀ t, D.rely s t → D.inv t → D.rely t (x.run t).2 ∧ D.inv (x.run t).2 ∧
      ∀ v, D.rely (x.run t).2 v → D.inv v → post (x.run t).1 v) :
    Ensures D (liftM x : Prog σ α) s post := by
  intro t later holds a u ran
  have same : x.run t = (a, u) := Option.some.inj ran
  have kept := each t later holds
  rw [same] at kept
  exact kept

theorem ensures_anyone (x : Prog σ α) (s : σ) :
    Ensures (.anyone σ) x s fun _ _ => True := by
  induction x generalizing s with
  | ret a => exact fun _ _ _ => trivial
  | atom act next ih => exact fun _ _ _ b u _ => ⟨trivial, trivial, ih b u⟩

theorem Ensures.later {x : Prog σ α} {post : α → σ → Prop} (ensures : Ensures D x s post)
    (step : D.rely s t) : Ensures D x t post := by
  cases x with
  | ret a => exact fun u next holds => ensures u (D.trans step next) holds
  | atom act next => exact fun u moved holds => ensures u (D.trans step moved) holds

theorem ensures_of_later {x : Prog σ α} {post : α → σ → Prop}
    (ensures : ∀ t, D.rely s t → D.inv t → Ensures D x t post) : Ensures D x s post := by
  cases x with
  | ret a => exact fun t later holds => ensures t later holds t (D.refl t) holds
  | atom act next => exact fun t later holds => ensures t later holds t (D.refl t) holds

theorem Ensures.mono {x : Prog σ α} {post weaker : α → σ → Prop} (ensures : Ensures D x s post)
    (implies : ∀ a t, D.rely s t → D.inv t → post a t → weaker a t) :
    Ensures D x s weaker := by
  induction x generalizing s with
  | ret a => exact fun t later holds => implies a t later holds (ensures t later holds)
  | atom act next ih =>
    intro t later holds b u ran
    obtain ⟨moved, kept, rest⟩ := ensures t later holds b u ran
    refine ⟨moved, kept, ih b rest fun a v after => ?_⟩
    exact implies a v (D.trans later (D.trans moved after))

theorem Ensures.bind {x : Prog σ α} {f : α → Prog σ β} {mid : α → σ → Prop}
    {post : β → σ → Prop} (first : Ensures D x s mid)
    (rest : ∀ a t, D.rely s t → D.inv t → mid a t → Ensures D (f a) t post) :
    Ensures D (x >>= f) s post := by
  induction x generalizing s with
  | ret a =>
    exact ensures_of_later fun t later holds => rest a t later holds (first t later holds)
  | atom act next ih =>
    intro t later holds b u ran
    obtain ⟨moved, kept, tail⟩ := first t later holds b u ran
    refine ⟨moved, kept, ih b tail fun a v after => ?_⟩
    exact rest a v (D.trans later (D.trans moved after))

/-- What holds of the answer goes on holding. -/
theorem Ensures.stable {x : Prog σ α} {post : α → σ → Prop} (ensures : Ensures D x s post) :
    Ensures D x s fun a t => ∀ u, D.rely t u → D.inv u → post a u := by
  induction x generalizing s with
  | ret a => exact fun t later _ u next holds => ensures u (D.trans later next) holds
  | atom act next ih =>
    intro t later holds b u ran
    obtain ⟨moved, kept, rest⟩ := ensures t later holds b u ran
    exact ⟨moved, kept, ih b rest⟩

theorem Ensures.runBind {x : ExceptT ε (Prog σ) α} {f : α → ExceptT ε (Prog σ) β}
    {mid : Except ε α → σ → Prop} {post : Except ε β → σ → Prop}
    (first : Ensures D x.run s mid)
    (failed : ∀ e t, D.rely s t → D.inv t → mid (.error e) t → post (.error e) t)
    (rest : ∀ a t, D.rely s t → D.inv t → mid (.ok a) t → Ensures D (f a).run t post) :
    Ensures D (x >>= f).run s post := by
  rw [ExceptT.run_bind]
  refine first.stable.bind fun r t later holds known => ?_
  cases r with
  | error e =>
    refine ensures_ret fun u next still => ?_
    exact failed e u (D.trans later next) still (known u next still)
  | ok a => exact rest a t later holds (known t (D.refl t) holds)

theorem Ensures.runLift {x : Prog σ α} {f : α → ExceptT ε (Prog σ) β} {mid : α → σ → Prop}
    {post : Except ε β → σ → Prop} (first : Ensures D x s mid)
    (rest : ∀ a t, D.rely s t → D.inv t → mid a t → Ensures D (f a).run t post) :
    Ensures D ((liftM x : ExceptT ε (Prog σ) α) >>= f).run s post := by
  have lifted : Ensures D (liftM x : ExceptT ε (Prog σ) α).run s
      fun r t => ∃ a, r = .ok a ∧ mid a t := by
    refine Ensures.bind (f := fun a => pure (Except.ok a)) first.stable fun a t _ _ known => ?_
    exact ensures_ret fun u next still => ⟨a, rfl, known u next still⟩
  refine lifted.runBind ?_ ?_
  · intro e t _ _ given
    obtain ⟨a, same, -⟩ := given
    cases same
  · intro a t later holds given
    obtain ⟨b, same, known⟩ := given
    cases same
    exact rest a t later holds known

theorem Ensures.runAdapt {x : ExceptT ε (Prog σ) α} (f : ε → ε') {post : Except ε α → σ → Prop}
    {post' : Except ε' α → σ → Prop} (first : Ensures D x.run s post)
    (implies : ∀ r t, D.rely s t → D.inv t → post r t → post' (r.mapError f) t) :
    Ensures D (ExceptT.adapt f x).run s post' := by
  refine Ensures.bind (f := fun r => pure (r.mapError f)) first.stable
    fun r t later holds known => ?_
  exact ensures_ret fun u next still =>
    implies r u (D.trans later next) still (known u next still)

/-- What the answer satisfies whatever the others do, it satisfies under a discipline too. -/
theorem Ensures.and_anyone {x : Prog σ α} {post : α → σ → Prop} {always : α → Prop}
    (ensures : Ensures D x s post) (free : Ensures (.anyone σ) x s fun a _ => always a) :
    Ensures D x s fun a t => post a t ∧ always a := by
  induction x generalizing s with
  | ret a => exact fun t later holds => ⟨ensures t later holds, free s trivial trivial⟩
  | atom act next ih =>
    intro t later holds b u ran
    obtain ⟨moved, kept, rest⟩ := ensures t later holds b u ran
    exact ⟨moved, kept, ih b rest (free t trivial trivial b u ran).2.2⟩

theorem Ensures.alone {x : Prog σ α} {post : α → σ → Prop} {a : α} (ensures : Ensures D x s post)
    (holds : D.inv s) (ran : x.alone s = some (a, t)) : post a t := by
  induction x generalizing s with
  | ret b =>
    cases ran
    exact ensures _ (D.refl _) holds
  | atom act next ih =>
    obtain ⟨⟨b, u⟩, acted, rest⟩ := Option.bind_eq_some_iff.mp ran
    obtain ⟨-, kept, tail⟩ := ensures s (D.refl s) holds b u acted
    exact ih b tail kept rest

def Respects (D : Discipline σ) (x : Prog σ α) : Prop := ∀ s, Ensures D x s fun _ _ => True

theorem respects_of_ensures {x : Prog σ α} {post : σ → α → σ → Prop}
    (ensures : ∀ s, Ensures D x s (post s)) : Respects D x :=
  fun s => (ensures s).mono fun _ _ _ _ _ => trivial

theorem respects_pure (a : α) : Respects D (pure a : Prog σ α) :=
  fun _ => ensures_ret fun _ _ _ => trivial

theorem Respects.bind {x : Prog σ α} {f : α → Prog σ β} (first : Respects D x)
    (rest : ∀ a, Respects D (f a)) : Respects D (x >>= f) :=
  fun s => (first s).bind fun a t _ _ _ => rest a t

theorem Respects.runBind {x : ExceptT ε (Prog σ) α} {f : α → ExceptT ε (Prog σ) β}
    (first : Respects D x.run) (rest : ∀ a, Respects D (f a).run) :
    Respects D (x >>= f).run :=
  fun s => (first s).runBind (fun _ _ _ _ _ => trivial) fun a t _ _ _ => rest a t

theorem Respects.runLift {x : Prog σ α} {f : α → ExceptT ε (Prog σ) β} (first : Respects D x)
    (rest : ∀ a, Respects D (f a).run) :
    Respects D ((liftM x : ExceptT ε (Prog σ) α) >>= f).run :=
  fun s => (first s).runLift fun a t _ _ _ => rest a t

end

/-- `Ensures` for runs in which every action is taken from a permitted state. What is
    permitted may depend on the whole program that is about to act. -/
def EnsuresIf (D : Discipline σ) (permit : Prog σ α → σ → Prop) :
    Prog σ α → σ → (α → σ → Prop) → Prop
  | .ret a, s, post => ∀ t, D.rely s t → D.inv t → post a t
  | .atom act next, s, post => ∀ t, D.rely s t → D.inv t → permit (.atom act next) t →
      ∀ b u, act t = some (b, u) → D.rely t u ∧ D.inv u ∧ EnsuresIf D permit (next b) u post

section
variable {D : Discipline σ} {s t : σ}

theorem Ensures.permitting {x : Prog σ α} {post : α → σ → Prop} (ensures : Ensures D x s post)
    (permit : Prog σ α → σ → Prop) : EnsuresIf D permit x s post := by
  induction x generalizing s with
  | ret a => exact ensures
  | atom act next ih =>
    intro t later holds _ b u ran
    obtain ⟨moved, kept, rest⟩ := ensures t later holds b u ran
    exact ⟨moved, kept, ih b rest⟩

theorem ensures_of_always {x : Prog σ α} {post : α → σ → Prop}
    (ensures : EnsuresIf D (fun _ _ => True) x s post) : Ensures D x s post := by
  induction x generalizing s with
  | ret a => exact ensures
  | atom act next ih =>
    intro t later holds b u ran
    obtain ⟨moved, kept, rest⟩ := ensures t later holds trivial b u ran
    exact ⟨moved, kept, ih b rest⟩

theorem EnsuresIf.later {permit : Prog σ α → σ → Prop} {x : Prog σ α} {post : α → σ → Prop}
    (ensures : EnsuresIf D permit x s post) (step : D.rely s t) : EnsuresIf D permit x t post := by
  cases x with
  | ret a => exact fun u next holds => ensures u (D.trans step next) holds
  | atom act next => exact fun u moved holds => ensures u (D.trans step moved) holds

/-- A program may be verified at the state its next action will find, and from a permitted
    one if it has an action to take. -/
theorem ensuresIf_of_permitted {permit : Prog σ α → σ → Prop} {x : Prog σ α} {post : α → σ → Prop}
    (ensures : ∀ t, D.rely s t → D.inv t → ((∀ a, x ≠ .ret a) → permit x t) →
      EnsuresIf D permit x t post) : EnsuresIf D permit x s post := by
  cases x with
  | ret a =>
    exact fun t later holds => ensures t later holds (fun active => absurd rfl (active a)) t
      (D.refl t) holds
  | atom act next =>
    exact fun t later holds allowed => ensures t later holds (fun _ => allowed) t (D.refl t) holds
      allowed

theorem EnsuresIf.bind {x : Prog σ α} {f : α → Prog σ β} {permit : Prog σ β → σ → Prop}
    {mid : α → σ → Prop} {post : β → σ → Prop}
    (first : EnsuresIf D (fun y t => permit (y >>= f) t) x s mid)
    (rest : ∀ a t, D.rely s t → D.inv t → mid a t → EnsuresIf D permit (f a) t post) :
    EnsuresIf D permit (x >>= f) s post := by
  induction x generalizing s with
  | ret a =>
    exact ensuresIf_of_permitted fun t later holds _ => rest a t later holds (first t later holds)
  | atom act next ih =>
    intro t later holds allowed b u ran
    obtain ⟨moved, kept, tail⟩ := first t later holds allowed b u ran
    refine ⟨moved, kept, ih b tail fun a v after => ?_⟩
    exact rest a v (D.trans later (D.trans moved after))

end

/-- A component whose discipline the larger one honours. -/
structure Focus (D : Discipline σ) (E : Discipline τ) (get : τ → σ) (set : τ → σ → τ) :
    Prop where
  get_set : ∀ t s, get (set t s) = s
  rely : ∀ t u, E.rely t u → D.rely (get t) (get u)
  inv : ∀ t, E.inv t → D.inv (get t)
  put : ∀ t s, E.inv t → D.rely (get t) s → D.inv s → E.rely t (set t s) ∧ E.inv (set t s)

theorem Ensures.zoom {D : Discipline σ} {E : Discipline τ} {get : τ → σ} {set : τ → σ → τ}
    (focus : Focus D E get set) {x : Prog σ α} {t : τ} {post : α → σ → Prop}
    (ensures : Ensures D x (get t) post) :
    Ensures E (x.zoom get set) t fun a u => post a (get u) := by
  induction x generalizing t with
  | ret a => exact fun u later holds => ensures (get u) (focus.rely t u later) (focus.inv u holds)
  | atom act next ih =>
    intro u later holds b v ran
    obtain ⟨⟨b', s⟩, acted, same⟩ := Option.map_eq_some_iff.mp ran
    cases same
    obtain ⟨moved, kept, rest⟩ :=
      ensures (get u) (focus.rely t u later) (focus.inv u holds) b' s acted
    obtain ⟨outer, still⟩ := focus.put u s holds moved kept
    exact ⟨outer, still, ih b' (by rwa [focus.get_set])⟩

structure Pool (σ κ α : Type) where
  shared : σ
  threads : List (κ × Prog σ α)

inductive Event (κ ε : Type) where
  | start (task : κ)
  | advance (thread : Nat)
  | outside (event : ε)

section
variable {κ : Type} (program : κ → Prog σ α) (outside : σ → ε → Option σ)

def Pool.step (p : Pool σ κ α) : Event κ ε → Option (Pool σ κ α)
  | .start task => some { p with threads := p.threads ++ [(task, program task)] }
  | .advance i =>
    match p.threads[i]? with
    | some (task, .atom act next) =>
      (act p.shared).map fun r => ⟨r.2, p.threads.set i (task, next r.1)⟩
    | _ => none
  | .outside e => (outside p.shared e).map fun s => { p with shared := s }

def Pool.Tame (allowed : σ → ε → Prop) (p : Pool σ κ α) : Event κ ε → Prop
  | .outside e => allowed p.shared e
  | _ => True

/-- Every event is a permitted one: those from outside in the state they find, and the
    actions of a thread by its place, its program and the state. -/
def Pool.Permitted (permit : Nat → Prog σ α → σ → Prop) (allowed : σ → ε → Prop)
    (p : Pool σ κ α) : Event κ ε → Prop
  | .start _ => True
  | .advance i => ∀ task x, p.threads[i]? = some (task, x) → permit i x p.shared
  | .outside e => allowed p.shared e

/-- The shared state is in order and every thread is on its way to its postcondition, as
    long as it acts from permitted states. -/
structure Pool.SoundIf (D : Discipline σ) (permit : Nat → Prog σ α → σ → Prop)
    (post : Nat → κ → α → σ → Prop) (p : Pool σ κ α) : Prop where
  inv : D.inv p.shared
  threads : ∀ i task x, p.threads[i]? = some (task, x) →
    EnsuresIf D (permit i) x p.shared (post i task)

structure Pool.Sound (D : Discipline σ) (post : κ → α → σ → Prop) (p : Pool σ κ α) : Prop where
  inv : D.inv p.shared
  threads : ∀ task x, (task, x) ∈ p.threads → Ensures D x p.shared (post task)

variable {program outside} {D : Discipline σ} {post : κ → α → σ → Prop}
  {allowed : σ → ε → Prop} {p q : Pool σ κ α}

theorem Pool.Sound.finished (sound : p.Sound D post) {task : κ} {a : α}
    (done : (task, Prog.ret a) ∈ p.threads) : post task a p.shared :=
  sound.threads task _ done p.shared (D.refl _) sound.inv

def Pool.outcomes (p : Pool σ κ α) : List (Option α) :=
  p.threads.map fun thread => match thread.2 with
    | .ret a => some a
    | .atom _ _ => none

theorem Pool.returned_of_outcomes {i : Nat} {a : α} (told : p.outcomes[i]? = some (some a)) :
    ∃ task, p.threads[i]? = some (task, .ret a) := by
  simp only [Pool.outcomes, List.getElem?_map, Option.map_eq_some_iff] at told
  obtain ⟨⟨task, x⟩, found, same⟩ := told
  cases x with
  | ret b =>
    cases same
    exact ⟨task, found⟩
  | atom act next => cases same

theorem Pool.returned_of_calls {i : Nat} {task : κ} {a : α}
    (called : (p.threads.map Prod.fst)[i]? = some task) (told : p.outcomes[i]? = some (some a)) :
    p.threads[i]? = some (task, .ret a) := by
  obtain ⟨task', done⟩ := Pool.returned_of_outcomes told
  rw [List.getElem?_map, done] at called
  cases called
  exact done

theorem Pool.tame_of_forall {events : List (Event κ ε)}
    (calm : ∀ e, .outside e ∈ events → ∀ s, allowed s e) (p : Pool σ κ α) :
    Meets (Pool.step program outside) (Pool.Tame allowed) p events := by
  induction events generalizing p with
  | nil => trivial
  | cons event rest ih =>
    refine ⟨?_, fun q _ => ih (fun e later => calm e (List.mem_cons_of_mem _ later)) q⟩
    cases event with
    | outside e => exact calm e (List.mem_cons_self ..) p.shared
    | _ => trivial

section
variable {permit : Nat → Prog σ α → σ → Prop} {owed : Nat → κ → α → σ → Prop}

theorem Pool.SoundIf.finished (sound : p.SoundIf D permit owed) {i : Nat} {task : κ} {a : α}
    (done : p.threads[i]? = some (task, .ret a)) : owed i task a p.shared :=
  sound.threads i task _ done p.shared (D.refl _) sound.inv

theorem Pool.step_soundIf
    (tasks : ∀ i task s, D.inv s → EnsuresIf D (permit i) (program task) s (owed i task))
    (calm : ∀ s e t, allowed s e → outside s e = some t → D.inv s → D.rely s t ∧ D.inv t)
    {event : Event κ ε} (taken : p.step program outside event = some q)
    (permitted : p.Permitted permit allowed event) (sound : p.SoundIf D permit owed) :
    q.SoundIf D permit owed := by
  cases event with
  | start task =>
    cases Option.some.inj taken
    refine ⟨sound.inv, fun i other x found => ?_⟩
    rcases Nat.lt_or_ge i p.threads.length with running | fresh
    · rw [List.getElem?_append_left running] at found
      exact sound.threads i other x found
    · rw [List.getElem?_append_right fresh] at found
      cases List.mem_singleton.mp (List.mem_of_getElem? found)
      exact tasks i task p.shared sound.inv
  | advance i =>
    simp only [Pool.step] at taken
    split at taken
    · rename_i task _ act next running
      obtain ⟨⟨b, s⟩, acted, same⟩ := Option.map_eq_some_iff.mp taken
      cases same
      obtain ⟨moved, kept, rest⟩ := sound.threads i task _ running p.shared (D.refl _) sound.inv
        (permitted task _ running) b s acted
      refine ⟨kept, fun j other x found => ?_⟩
      rw [List.getElem?_set] at found
      split at found
      · rename_i here
        subst here
        split at found
        · cases found
          exact rest
        · cases found
      · exact (sound.threads j other x found).later moved
    · cases taken
  | outside e =>
    obtain ⟨s, happened, same⟩ := Option.map_eq_some_iff.mp taken
    cases same
    obtain ⟨moved, kept⟩ := calm p.shared e s permitted happened sound.inv
    exact ⟨kept, fun i task x found => (sound.threads i task x found).later moved⟩

theorem Pool.run_soundIf
    (tasks : ∀ i task s, D.inv s → EnsuresIf D (permit i) (program task) s (owed i task))
    (calm : ∀ s e t, allowed s e → outside s e = some t → D.inv s → D.rely s t ∧ D.inv t)
    {events : List (Event κ ε)} (run : exec (Pool.step program outside) p events = some q)
    (permitted : Meets (Pool.step program outside) (Pool.Permitted permit allowed) p events)
    (sound : p.SoundIf D permit owed) : q.SoundIf D permit owed :=
  exec_keeps_meeting
    (fun _ _ _ taken permitted sound => Pool.step_soundIf tasks calm taken permitted sound)
    run permitted sound

end

theorem Pool.step_sound (tasks : ∀ task s, D.inv s → Ensures D (program task) s (post task))
    (calm : ∀ s e t, allowed s e → outside s e = some t → D.inv s → D.rely s t ∧ D.inv t)
    {event : Event κ ε} (taken : p.step program outside event = some q)
    (tame : p.Tame allowed event) (sound : p.Sound D post) : q.Sound D post := by
  have permitted : p.Permitted (fun _ _ _ => True) allowed event := by
    cases event with
    | outside e => exact tame
    | start task => trivial
    | advance i => exact fun _ _ _ => trivial
  have before : p.SoundIf D (fun _ _ _ => True) (fun _ => post) :=
    ⟨sound.inv, fun _ task x found =>
      (sound.threads task x (List.mem_of_getElem? found)).permitting _⟩
  have after := Pool.step_soundIf (fun _ task s holds => (tasks task s holds).permitting _) calm
    taken permitted before
  refine ⟨after.inv, fun task x member => ?_⟩
  obtain ⟨i, found⟩ := List.mem_iff_getElem?.mp member
  exact ensures_of_always (after.threads i task x found)

theorem Pool.run_sound (tasks : ∀ task s, D.inv s → Ensures D (program task) s (post task))
    (calm : ∀ s e t, allowed s e → outside s e = some t → D.inv s → D.rely s t ∧ D.inv t)
    {events : List (Event κ ε)} (run : exec (Pool.step program outside) p events = some q)
    (tame : Meets (Pool.step program outside) (Pool.Tame allowed) p events)
    (sound : p.Sound D post) : q.Sound D post :=
  exec_keeps_meeting (fun _ _ _ taken tame sound => Pool.step_sound tasks calm taken tame sound)
    run tame sound

/-- A thread after a step: as before, just started, or one action further. -/
theorem Pool.step_thread {event : Event κ ε} (taken : p.step program outside event = some q)
    {i : Nat} {task : κ} {x : Prog σ α} (found : q.threads[i]? = some (task, x)) :
    p.threads[i]? = some (task, x) ∨ x = program task ∨
      ∃ (β : Type) (act : σ → Option (β × σ)) (next : β → Prog σ α) (b : β),
        p.threads[i]? = some (task, .atom act next) ∧ act p.shared = some (b, q.shared) ∧
          x = next b := by
  cases event with
  | start fresh =>
    cases Option.some.inj taken
    rcases Nat.lt_or_ge i p.threads.length with here | new
    · rw [List.getElem?_append_left here] at found
      exact Or.inl found
    · rw [List.getElem?_append_right new] at found
      cases List.mem_singleton.mp (List.mem_of_getElem? found)
      exact Or.inr (Or.inl rfl)
  | outside e =>
    obtain ⟨u, -, same⟩ := Option.map_eq_some_iff.mp taken
    cases same
    exact Or.inl found
  | advance j =>
    simp only [Pool.step] at taken
    split at taken
    · rename_i other β act next there
      obtain ⟨⟨b, u⟩, acted, same⟩ := Option.map_eq_some_iff.mp taken
      cases same
      by_cases here : i = j
      · subst here
        rw [List.getElem?_set_self (List.getElem?_eq_some_iff.mp there).1] at found
        cases found
        exact Or.inr (Or.inr ⟨β, act, next, b, there, acted, rfl⟩)
      · rw [List.getElem?_set_ne (Ne.symm here)] at found
        exact Or.inl found
    · cases taken

theorem Pool.run_ends {good : κ → α → σ → Prop} {s : σ} {events : List (Event κ ε)}
    (ends : ∀ task, (program task).Ends (good task))
    (run : exec (Pool.step program outside) ⟨s, []⟩ events = some q) :
    ∀ (i : Nat) (task : κ) (x : Prog σ α), q.threads[i]? = some (task, x) → x.Ends (good task) := by
  have keeps : ∀ (p : Pool σ κ α) (event : Event κ ε) (q : Pool σ κ α),
      p.step program outside event = some q →
      (∀ (i : Nat) (task : κ) (x : Prog σ α),
        p.threads[i]? = some (task, x) → x.Ends (good task)) →
      ∀ (i : Nat) (task : κ) (x : Prog σ α),
        q.threads[i]? = some (task, x) → x.Ends (good task) := by
    intro p event q taken kept i task x found
    rcases Pool.step_thread taken found with same | rfl | ⟨β, act, next, b, before, -, rfl⟩
    · exact kept i task x same
    · exact ends task
    · exact (kept i task _ before).2 b
  exact exec_keeps keeps run fun _ _ _ found => nomatch found

/-- Where a thread that has finished took its last action. -/
theorem Pool.run_ended {good : κ → α → σ → Prop} {s : σ} {events : List (Event κ ε)}
    (ends : ∀ task, (program task).Ends (good task))
    (run : exec (Pool.step program outside) ⟨s, []⟩ events = some q) {i : Nat} {task : κ} {a : α}
    (done : q.threads[i]? = some (task, .ret a)) :
    program task = .ret a ∨ ∃ before after mid, events = before ++ after ∧
      exec (Pool.step program outside) ⟨s, []⟩ before = some mid ∧
      mid.threads[i]? = some (task, .ret a) ∧ good task a mid.shared := by
  induction events using List.reverseRecOn generalizing q with
  | nil =>
    cases Option.some.inj run
    cases done
  | append_singleton events event ih =>
    obtain ⟨p, first, taken⟩ := exec_snoc run
    rcases Pool.step_thread taken done with same | fresh | ⟨β, act, next, b, running, acted, last⟩
    · refine (ih first same).imp_right ?_
      rintro ⟨before, after, mid, rfl, reach, there, fine⟩
      exact ⟨before, after ++ [event], mid, List.append_assoc .., reach, there, fine⟩
    · exact Or.inl fresh.symm
    · refine Or.inr ⟨_, [], q, (List.append_nil _).symm, run, done, ?_⟩
      exact (Pool.run_ends ends first i task _ running).1 p.shared b q.shared acted a last.symm

end
end Interleave

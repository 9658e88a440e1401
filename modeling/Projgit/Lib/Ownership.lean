import Projgit.Lib.Interleave

/- Threads that own parts of the shared state. A claim says what a thread owns at the moment;
   an action may trade its claim for another, but it leaves alone what any thread with a
   claim apart from its own can see. Threads are verified one at a time; a pool of them keeps
   its claims pairwise apart. -/
namespace Interleave
open LabelledRuns
variable {σ ρ α β ε κ : Type}

/-- `valid s r` says that `r` may be claimed in `s`, `frame r s t` that nothing it owns has
    changed, and `onward s t` what no thread ever undoes. -/
structure Custody (σ ρ : Type) where
  inv : σ → Prop
  valid : σ → ρ → Prop
  onward : σ → σ → Prop
  frame : ρ → σ → σ → Prop
  apart : ρ → ρ → Prop
  nothing : ρ
  onward_refl : ∀ s, onward s s
  onward_trans : ∀ {s t u}, onward s t → onward t u → onward s u
  frame_refl : ∀ r s, frame r s s
  frame_trans : ∀ {r s t u}, frame r s t → frame r t u → frame r s u
  apart_symm : ∀ {a b}, apart a b → apart b a
  apart_nothing : ∀ r, apart nothing r
  valid_nothing : ∀ s, valid s nothing

structure Custody.Rely (C : Custody σ ρ) (r : ρ) (s t : σ) : Prop where
  inv : C.inv t
  valid : C.valid t r
  onward : C.onward s t
  frame : C.frame r s t

/-- An action that ends with the claim `r'` was fair to everyone apart from `r`. -/
structure Custody.Fair (C : Custody σ ρ) (r r' : ρ) (t u : σ) : Prop where
  inv : C.inv u
  valid : C.valid u r'
  onward : C.onward t u
  others : ∀ o, C.apart r o → C.valid t o → C.apart r' o ∧ C.valid u o ∧ C.frame o t u

/-- From `s` with the claim `r`, every action of the program is fair, and its answer and last
    claim satisfy `post` from then on. -/
def Secures (C : Custody σ ρ) : Prog σ α → ρ → σ → (α → ρ → σ → Prop) → Prop
  | .ret a, r, s, post => ∀ t, C.Rely r s t → post a r t
  | .atom act next, r, s, post => ∀ t, C.Rely r s t → ∀ b u, act t = some (b, u) →
      ∃ r', C.Fair r r' t u ∧ Secures C (next b) r' u post

section
variable {C : Custody σ ρ} {r : ρ} {s t u : σ}

theorem Custody.Rely.trans (first : C.Rely r s t) (second : C.Rely r t u) : C.Rely r s u :=
  ⟨second.inv, second.valid, C.onward_trans first.onward second.onward,
    C.frame_trans first.frame second.frame⟩

theorem Custody.Rely.here (rely : C.Rely r s t) : C.Rely r t t :=
  ⟨rely.inv, rely.valid, C.onward_refl t, C.frame_refl r t⟩

theorem Custody.Fair.here {r' : ρ} (fair : C.Fair r r' t u) : C.Rely r' u u :=
  ⟨fair.inv, fair.valid, C.onward_refl u, C.frame_refl r' u⟩

theorem secures_ret {a : α} {post : α → ρ → σ → Prop} (holds : ∀ t, C.Rely r s t → post a r t) :
    Secures C (pure a : Prog σ α) r s post := holds

theorem secures_await {act : σ → Option (α × σ)} {post : α → ρ → σ → Prop}
    (each : ∀ t, C.Rely r s t → ∀ a u, act t = some (a, u) →
      ∃ r', C.Fair r r' t u ∧ ∀ v, C.Rely r' u v → post a r' v) :
    Secures C (await act) r s post := each

theorem Secures.later {x : Prog σ α} {post : α → ρ → σ → Prop} (secures : Secures C x r s post)
    (moved : C.Rely r s t) : Secures C x r t post := by
  cases x with
  | ret a => exact fun u next => secures u (moved.trans next)
  | atom act next => exact fun u after => secures u (moved.trans after)

theorem secures_of_later {x : Prog σ α} {post : α → ρ → σ → Prop}
    (secures : ∀ t, C.Rely r s t → Secures C x r t post) : Secures C x r s post := by
  cases x with
  | ret a => exact fun t later => secures t later t later.here
  | atom act next => exact fun t later => secures t later t later.here

theorem Secures.bind {x : Prog σ α} {f : α → Prog σ β} {mid : α → ρ → σ → Prop}
    {post : β → ρ → σ → Prop} (first : Secures C x r s mid)
    (rest : ∀ a r' t, C.Rely r' t t → C.onward s t → mid a r' t → Secures C (f a) r' t post) :
    Secures C (x >>= f) r s post := by
  induction x generalizing r s with
  | ret a =>
    exact secures_of_later fun t later => rest a r t later.here later.onward (first t later)
  | atom act next ih =>
    intro t later b u ran
    obtain ⟨r', fair, tail⟩ := first t later b u ran
    refine ⟨r', fair, ih b tail fun a r'' v here after => ?_⟩
    exact rest a r'' v here (C.onward_trans later.onward (C.onward_trans fair.onward after))

theorem Secures.stable {x : Prog σ α} {post : α → ρ → σ → Prop} (secures : Secures C x r s post) :
    Secures C x r s fun a r' t => ∀ u, C.Rely r' t u → post a r' u := by
  induction x generalizing r s with
  | ret a => exact fun t later u next => secures u (later.trans next)
  | atom act next ih =>
    intro t later b u ran
    obtain ⟨r', fair, rest⟩ := secures t later b u ran
    exact ⟨r', fair, ih b rest⟩

theorem Secures.mono {x : Prog σ α} {post weaker : α → ρ → σ → Prop}
    (secures : Secures C x r s post)
    (implies : ∀ a r' t, C.Rely r' t t → C.onward s t → post a r' t → weaker a r' t) :
    Secures C x r s weaker := by
  have composed : Secures C (x >>= pure) r s weaker :=
    secures.stable.bind fun a r' t here onward known => secures_ret fun u next =>
      implies a r' u next.here (C.onward_trans onward next.onward) (known u next)
  rwa [bind_pure] at composed

theorem Secures.runBind {x : ExceptT ε (Prog σ) α} {f : α → ExceptT ε (Prog σ) β}
    {mid : Except ε α → ρ → σ → Prop} {post : Except ε β → ρ → σ → Prop}
    (first : Secures C x.run r s mid)
    (failed : ∀ e r' t, C.Rely r' t t → C.onward s t → mid (.error e) r' t → post (.error e) r' t)
    (rest : ∀ a r' t, C.Rely r' t t → C.onward s t → mid (.ok a) r' t →
      Secures C (f a).run r' t post) :
    Secures C (x >>= f).run r s post := by
  rw [ExceptT.run_bind]
  refine first.stable.bind fun answer r' t here onward known => ?_
  cases answer with
  | error e =>
    refine secures_ret fun u next => ?_
    exact failed e r' u next.here (C.onward_trans onward next.onward) (known u next)
  | ok a => exact rest a r' t here onward (known t here)

theorem Secures.runLift {x : Prog σ α} {f : α → ExceptT ε (Prog σ) β} {mid : α → ρ → σ → Prop}
    {post : Except ε β → ρ → σ → Prop} (first : Secures C x r s mid)
    (rest : ∀ a r' t, C.Rely r' t t → C.onward s t → mid a r' t → Secures C (f a).run r' t post) :
    Secures C ((liftM x : ExceptT ε (Prog σ) α) >>= f).run r s post := by
  have lifted : Secures C (liftM x : ExceptT ε (Prog σ) α).run r s
      fun answer r' t => ∃ a, answer = .ok a ∧ mid a r' t := by
    refine Secures.bind (f := fun a => pure (Except.ok a)) first.stable fun a r' t _ _ known => ?_
    exact secures_ret fun u next => ⟨a, rfl, known u next⟩
  refine lifted.runBind ?_ ?_
  · intro e r' t _ _ given
    obtain ⟨a, same, -⟩ := given
    cases same
  · intro a r' t here onward given
    obtain ⟨b, same, known⟩ := given
    cases same
    exact rest a r' t here onward known

theorem Secures.runAdapt {ε' : Type} {x : ExceptT ε (Prog σ) α} (f : ε → ε')
    {post : Except ε α → ρ → σ → Prop} {post' : Except ε' α → ρ → σ → Prop}
    (first : Secures C x.run r s post)
    (implies : ∀ a r' t, C.Rely r' t t → C.onward s t → post a r' t →
      post' (a.mapError f) r' t) :
    Secures C (ExceptT.adapt f x).run r s post' := by
  refine Secures.bind (f := fun a => pure (a.mapError f)) first.stable
    fun a r' t _ onward known => ?_
  exact secures_ret fun u next =>
    implies a r' u next.here (C.onward_trans onward next.onward) (known u next)

theorem Secures.and_answers {x : Prog σ α} {post : α → ρ → σ → Prop} {fine : α → Prop}
    (first : Secures C x r s post) (answers : x.Answers fine) :
    Secures C x r s fun a r' t => post a r' t ∧ fine a := by
  induction x generalizing r s with
  | ret a => exact fun t later => ⟨first t later, answers⟩
  | atom act next ih =>
    intro t later b u ran
    obtain ⟨r', fair, rest⟩ := first t later b u ran
    exact ⟨r', fair, ih b rest (answers b)⟩

end

def Leaves (view : σ → β) : Prog σ α → Prop
  | .ret _ => True
  | .atom act next => (∀ s b t, act s = some (b, t) → view t = view s) ∧ ∀ b, Leaves view (next b)

structure Custody.SeenThrough (C : Custody σ ρ) (view : σ → β) : Prop where
  inv : ∀ {s t}, view t = view s → C.inv s → C.inv t
  valid : ∀ {s t} r, view t = view s → C.valid s r → C.valid t r
  onward : ∀ {s t}, view t = view s → C.onward s t
  frame : ∀ {s t} r, view t = view s → C.frame r s t

section
variable {τ γ δ : Type} {view : σ → β}

theorem leaves_pure (a : α) : Leaves view (pure a : Prog σ α) := trivial

theorem leaves_await {act : σ → Option (α × σ)}
    (each : ∀ s a t, act s = some (a, t) → view t = view s) : Leaves view (await act) :=
  ⟨each, fun _ => trivial⟩

theorem Leaves.bind {x : Prog σ α} {f : α → Prog σ γ} (first : Leaves view x)
    (rest : ∀ a, Leaves view (f a)) : Leaves view (x >>= f) := by
  induction x with
  | ret a => exact rest a
  | atom act next ih => exact ⟨first.1, fun b => ih b (first.2 b)⟩

theorem Leaves.runBind {x : ExceptT ε (Prog σ) α} {f : α → ExceptT ε (Prog σ) γ}
    (first : Leaves view x.run) (rest : ∀ a, Leaves view (f a).run) :
    Leaves view (x >>= f).run := by
  rw [ExceptT.run_bind]
  refine first.bind fun answer => ?_
  cases answer with
  | error e => exact leaves_pure _
  | ok a => exact rest a

theorem Leaves.runLift {x : Prog σ α} {f : α → ExceptT ε (Prog σ) γ} (first : Leaves view x)
    (rest : ∀ a, Leaves view (f a).run) :
    Leaves view ((liftM x : ExceptT ε (Prog σ) α) >>= f).run :=
  Leaves.runBind (Leaves.bind (f := fun a => pure (Except.ok a)) first fun _ => trivial) rest

/-- A program on one component leaves what a larger view shows, if the view shows of the
    component only what the program leaves. -/
theorem Leaves.zoom {get : τ → σ} {set : τ → σ → τ} {wide : τ → δ} {x : Prog σ α}
    (leaves : Leaves view x)
    (narrow : ∀ t s, view s = view (get t) → wide (set t s) = wide t) :
    Leaves wide (x.zoom get set) := by
  induction x with
  | ret a => trivial
  | atom act next ih =>
    refine ⟨fun t b u ran => ?_, fun b => ih b (leaves.2 b)⟩
    obtain ⟨⟨b', s⟩, acted, same⟩ := Option.map_eq_some_iff.mp ran
    cases same
    exact narrow t s (leaves.1 (get t) b' s acted)

/-- Other threads may do anything that keeps what `view` shows in order. -/
def Discipline.shows (view : σ → β) (good : β → Prop) : Discipline σ :=
  ⟨fun s => good (view s), fun _ _ => True, fun _ => trivial, fun _ _ => trivial⟩

theorem Leaves.respects {x : Prog σ α} (leaves : Leaves view x) (good : β → Prop) :
    Respects (.shows view good) x := by
  intro s
  induction x generalizing s with
  | ret a => exact fun _ _ _ => trivial
  | atom act next ih =>
    intro t _ shown b u ran
    refine ⟨trivial, ?_, ih b (leaves.2 b) u⟩
    have same := leaves.1 t b u ran
    simp only [Discipline.shows, same]
    exact shown

theorem Custody.SeenThrough.rely {C : Custody σ ρ} {r : ρ} {s t u : σ} (seen : C.SeenThrough view)
    (later : C.Rely r s t) (same : view u = view t) : C.Rely r s u :=
  later.trans ⟨seen.inv same later.inv, seen.valid r same later.valid, seen.onward same,
    seen.frame r same⟩

theorem Custody.SeenThrough.fair {C : Custody σ ρ} {r : ρ} {s t u : σ} (seen : C.SeenThrough view)
    (later : C.Rely r s t) (same : view u = view t) : C.Fair r r t u :=
  ⟨seen.inv same later.inv, seen.valid r same later.valid, seen.onward same,
    fun o apart held => ⟨apart, seen.valid o same held, seen.frame o same⟩⟩

theorem secures_of_leaves {C : Custody σ ρ} {r : ρ} {s : σ} {x : Prog σ α}
    (seen : C.SeenThrough view) (leaves : Leaves view x) :
    Secures C x r s fun _ r' t => r' = r ∧ C.Rely r s t := by
  have from_ : ∀ a, (∀ t, C.Rely r a t → C.Rely r s t) →
      Secures C x r a fun _ r' t => r' = r ∧ C.Rely r s t := by
    induction x with
    | ret b => exact fun a reached t later => ⟨rfl, reached t later⟩
    | atom act next ih =>
      intro a reached t later b u ran
      have same := leaves.1 t b u ran
      refine ⟨r, seen.fair later same, ih b (leaves.2 b) u fun v after => ?_⟩
      exact reached v ((seen.rely later same).trans after)
  exact from_ s fun t later => later

end

structure Pool.Secure (C : Custody σ ρ) (post : κ → α → ρ → σ → Prop) (p : Pool σ κ α)
    (held : Nat → ρ) : Prop where
  inv : C.inv p.shared
  idle : ∀ i, p.threads.length ≤ i → held i = C.nothing
  apart : ∀ i j, i ≠ j → C.apart (held i) (held j)
  valid : ∀ i, C.valid p.shared (held i)
  threads : ∀ i task x, p.threads[i]? = some (task, x) →
    Secures C x (held i) p.shared (post task)

section
variable {C : Custody σ ρ} {program : κ → Prog σ α} {outside : σ → ε → Option σ}
  {post : κ → α → ρ → σ → Prop} {p q : Pool σ κ α} {held : Nat → ρ}

theorem Pool.Secure.rely (secure : p.Secure C post held) (i : Nat) :
    C.Rely (held i) p.shared p.shared :=
  ⟨secure.inv, secure.valid i, C.onward_refl _, C.frame_refl _ _⟩

theorem Pool.Secure.finished (secure : p.Secure C post held) {i : Nat} {task : κ} {a : α}
    (done : p.threads[i]? = some (task, .ret a)) : post task a (held i) p.shared :=
  secure.threads i task _ done p.shared (secure.rely i)

theorem Pool.start_secure (tasks : ∀ task s, C.inv s → Secures C (program task) C.nothing s (post task))
    (secure : p.Secure C post held) (task : κ) :
    Pool.Secure C post { p with threads := p.threads ++ [(task, program task)] } held := by
  refine ⟨secure.inv, fun i beyond => secure.idle i ?_, secure.apart, secure.valid, ?_⟩
  · rw [List.length_append] at beyond
    omega
  · intro i other x found
    rcases Nat.lt_or_ge i p.threads.length with running | fresh
    · rw [List.getElem?_append_left running] at found
      exact secure.threads i other x found
    · rw [List.getElem?_append_right fresh] at found
      cases List.mem_singleton.mp (List.mem_of_getElem? found)
      rw [secure.idle i fresh]
      exact tasks task p.shared secure.inv

theorem Pool.advance_secure {act : σ → Option (β × σ)} {next : β → Prog σ α} {i : Nat} {task : κ}
    {b : β} {u : σ} (secure : p.Secure C post held)
    (running : p.threads[i]? = some (task, .atom act next)) (acted : act p.shared = some (b, u)) :
    ∃ r, Pool.Secure C post ⟨u, p.threads.set i (task, next b)⟩ (Function.update held i r) := by
  obtain ⟨r, fair, rest⟩ := secure.threads i task _ running p.shared (secure.rely i) b u acted
  have inside : i < p.threads.length := (List.getElem?_eq_some_iff.mp running).1
  have others : ∀ j, j ≠ i → C.apart r (held j) ∧ C.valid u (held j) ∧ C.frame (held j) p.shared u :=
    fun j other => fair.others (held j) (secure.apart i j other.symm) (secure.valid j)
  refine ⟨r, fair.inv, fun j beyond => ?_, fun j k differ => ?_, fun j => ?_, ?_⟩
  · rw [List.length_set] at beyond
    rw [Function.update_of_ne (by omega)]
    exact secure.idle j beyond
  · by_cases first : j = i
    · subst first
      rw [Function.update_self, Function.update_of_ne differ.symm]
      exact (others k differ.symm).1
    · by_cases second : k = i
      · subst second
        rw [Function.update_self, Function.update_of_ne differ]
        exact C.apart_symm (others j differ).1
      · rw [Function.update_of_ne first, Function.update_of_ne second]
        exact secure.apart j k differ
  · by_cases here : j = i
    · subst here
      rw [Function.update_self]
      exact fair.valid
    · rw [Function.update_of_ne here]
      exact (others j here).2.1
  · intro j other x found
    by_cases here : j = i
    · subst here
      rw [List.getElem?_set_self inside] at found
      cases found
      rw [Function.update_self]
      exact rest
    · rw [List.getElem?_set_ne (Ne.symm here)] at found
      rw [Function.update_of_ne here]
      obtain ⟨-, valid, frame⟩ := others j here
      exact (secure.threads j other x found).later ⟨fair.inv, valid, fair.onward, frame⟩

theorem Pool.step_secure
    (tasks : ∀ task s, C.inv s → Secures C (program task) C.nothing s (post task))
    (calm : ∀ s e t, outside s e = some t → C.inv s → C.inv t ∧ C.onward s t ∧
      ∀ r, C.valid s r → C.valid t r ∧ C.frame r s t)
    {event : Event κ ε} (taken : p.step program outside event = some q)
    (secure : p.Secure C post held) : ∃ held, q.Secure C post held := by
  cases event with
  | start task =>
    cases Option.some.inj taken
    exact ⟨held, Pool.start_secure tasks secure task⟩
  | advance i =>
    simp only [Pool.step] at taken
    split at taken
    · rename_i task _ act next running
      obtain ⟨⟨b, u⟩, acted, same⟩ := Option.map_eq_some_iff.mp taken
      cases same
      obtain ⟨r, stepped⟩ := Pool.advance_secure secure running acted
      exact ⟨_, stepped⟩
    · cases taken
  | outside e =>
    obtain ⟨t, happened, same⟩ := Option.map_eq_some_iff.mp taken
    cases same
    obtain ⟨kept, onward, each⟩ := calm p.shared e t happened secure.inv
    refine ⟨held, kept, secure.idle, secure.apart, fun i => (each _ (secure.valid i)).1, ?_⟩
    intro i task x found
    obtain ⟨valid, frame⟩ := each _ (secure.valid i)
    exact (secure.threads i task x found).later ⟨kept, valid, onward, frame⟩

theorem Pool.run_secure
    (tasks : ∀ task s, C.inv s → Secures C (program task) C.nothing s (post task))
    (calm : ∀ s e t, outside s e = some t → C.inv s → C.inv t ∧ C.onward s t ∧
      ∀ r, C.valid s r → C.valid t r ∧ C.frame r s t)
    {events : List (Event κ ε)} (run : exec (Pool.step program outside) p events = some q)
    (start : ∃ held, p.Secure C post held) : ∃ held, q.Secure C post held := by
  have keeps : ∀ p event q, Pool.step program outside p event = some q →
      (∃ held, Pool.Secure C post p held) → ∃ held, Pool.Secure C post q held := by
    rintro p event q taken ⟨held, secure⟩
    exact Pool.step_secure tasks calm taken secure
  exact exec_keeps keeps run start

theorem Pool.step_onward (calm : ∀ s e t, outside s e = some t → C.inv s → C.onward s t)
    {event : Event κ ε} (taken : p.step program outside event = some q)
    (secure : p.Secure C post held) : C.onward p.shared q.shared := by
  cases event with
  | start task =>
    cases Option.some.inj taken
    exact C.onward_refl p.shared
  | advance i =>
    simp only [Pool.step] at taken
    split at taken
    · rename_i task _ act next running
      obtain ⟨⟨b, u⟩, acted, same⟩ := Option.map_eq_some_iff.mp taken
      cases same
      obtain ⟨r, fair, -⟩ := secure.threads i task _ running p.shared (secure.rely i) b u acted
      exact fair.onward
    · cases taken
  | outside e =>
    obtain ⟨t, happened, same⟩ := Option.map_eq_some_iff.mp taken
    cases same
    exact calm p.shared e t happened secure.inv

/-- What no thread ever undoes, no run undoes. -/
theorem Pool.run_onward
    (tasks : ∀ task s, C.inv s → Secures C (program task) C.nothing s (post task))
    (calm : ∀ s e t, outside s e = some t → C.inv s → C.inv t ∧ C.onward s t ∧
      ∀ r, C.valid s r → C.valid t r ∧ C.frame r s t)
    {events : List (Event κ ε)} (run : exec (Pool.step program outside) p events = some q)
    (start : ∃ held, p.Secure C post held) : C.onward p.shared q.shared := by
  induction events generalizing p with
  | nil =>
    cases Option.some.inj run
    exact C.onward_refl _
  | cons event rest ih =>
    obtain ⟨mid, taken, tail⟩ := exec_cons run
    obtain ⟨held, secure⟩ := start
    have first := Pool.step_onward (fun s e t happened inv => (calm s e t happened inv).2.1) taken
      secure
    exact C.onward_trans first (ih tail (Pool.step_secure tasks calm taken secure))

end
end Interleave

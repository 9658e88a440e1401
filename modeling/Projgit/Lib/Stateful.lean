import Mathlib.Data.List.Basic

/- Reasoning about computations in `StateM` and in `ExceptT` over it. `Gives` is the
   postcondition of one run; `Returns` says that a computation answers a fixed value
   from every state of an invariant, which it keeps. -/
namespace Stateful
variable {σ τ ε ε' α β : Type}

def Gives (x : StateM σ α) (s : σ) (post : α → σ → Prop) : Prop :=
  post (x.run s).1 (x.run s).2

theorem Gives.mono {x : StateM σ α} {s : σ} {post weaker : α → σ → Prop}
    (gives : Gives x s post) (implies : ∀ a t, post a t → weaker a t) : Gives x s weaker :=
  implies _ _ gives

theorem Gives.and {x : StateM σ α} {s : σ} {post other : α → σ → Prop}
    (first : Gives x s post) (second : Gives x s other) :
    Gives x s fun a t => post a t ∧ other a t := ⟨first, second⟩

theorem gives_when {x : StateM σ α} {s : σ} {p : Prop} {post : α → σ → Prop}
    (gives : p → Gives x s post) : Gives x s fun a t => p → post a t := gives

theorem gives_self (x : StateM σ α) (s : σ) :
    Gives x s fun a t => a = (x.run s).1 ∧ t = (x.run s).2 := ⟨rfl, rfl⟩

theorem gives_congr {x : StateM σ α} {s : σ} {post other : α → σ → Prop}
    (same : ∀ a t, post a t ↔ other a t) : Gives x s post ↔ Gives x s other := same _ _

@[simp] theorem gives_pure (a : α) (s : σ) (post : α → σ → Prop) :
    Gives (pure a) s post ↔ post a s := Iff.rfl

@[simp] theorem gives_bind (x : StateM σ α) (f : α → StateM σ β) (s : σ) (post : β → σ → Prop) :
    Gives (x >>= f) s post ↔ Gives x s fun a t => Gives (f a) t post := Iff.rfl

@[simp] theorem gives_modifyGet (f : σ → α × σ) (s : σ) (post : α → σ → Prop) :
    Gives (modifyGet f) s post ↔ post (f s).1 (f s).2 := Iff.rfl

@[simp] theorem gives_run_pure (a : α) (s : σ) (post : Except ε α → σ → Prop) :
    Gives (ExceptT.run (pure a)) s post ↔ post (.ok a) s := Iff.rfl

@[simp] theorem gives_run_throw (e : ε) (s : σ) (post : Except ε α → σ → Prop) :
    Gives (ExceptT.run (throw e)) s post ↔ post (.error e) s := Iff.rfl

@[simp] theorem gives_run_mk (x : StateM σ (Except ε α)) (s : σ) (post : Except ε α → σ → Prop) :
    Gives (ExceptT.run (ExceptT.mk x)) s post ↔ Gives x s post := Iff.rfl

@[simp] theorem gives_run_lift (x : StateM σ α) (s : σ) (post : Except ε α → σ → Prop) :
    Gives (ExceptT.run (liftM x)) s post ↔ Gives x s fun a t => post (.ok a) t := Iff.rfl

/-- The postcondition of a sequel: run on a value, passed through on an error. -/
def Sequel (f : α → ExceptT ε (StateM σ) β) (post : Except ε β → σ → Prop) :
    Except ε α → σ → Prop
  | .ok a, t => Gives (f a).run t post
  | .error e, t => post (.error e) t

@[simp] theorem sequel_ok (f : α → ExceptT ε (StateM σ) β) (post : Except ε β → σ → Prop) (a : α)
    (t : σ) : Sequel f post (.ok a) t ↔ Gives (f a).run t post := Iff.rfl

@[simp] theorem sequel_error (f : α → ExceptT ε (StateM σ) β) (post : Except ε β → σ → Prop)
    (e : ε) (t : σ) : Sequel f post (.error e) t ↔ post (.error e) t := Iff.rfl

@[simp] theorem gives_run_bind (x : ExceptT ε (StateM σ) α) (f : α → ExceptT ε (StateM σ) β) (s : σ)
    (post : Except ε β → σ → Prop) :
    Gives (x >>= f).run s post ↔ Gives x.run s (Sequel f post) := by
  rw [ExceptT.run_bind, gives_bind]
  unfold Gives
  rcases (x.run.run s).1 with e | a <;> rfl

@[simp] theorem gives_run_adapt (x : ExceptT ε (StateM σ) α) (f : ε → ε') (s : σ)
    (post : Except ε' α → σ → Prop) :
    Gives (ExceptT.adapt f x).run s post ↔ Gives x.run s fun r t => post (r.mapError f) t :=
  Iff.rfl

theorem bind_eq_pure {x : ExceptT ε Id α} {f : α → ExceptT ε Id β} {b : β}
    (returned : x >>= f = pure b) : ∃ a, x = pure a ∧ f a = pure b := by
  rcases value : x.run.run with e | a
  · have thrown : x = throw e := value
    rw [thrown] at returned
    cases returned
  · have pure_ : x = pure a := value
    rw [pure_, pure_bind] at returned
    exact ⟨a, pure_, returned⟩

/-- Run from `s`, the computation answers `a` without an error and ends in `t`. -/
def Yields (x : ExceptT ε (StateM σ) α) (s : σ) (a : α) (t : σ) : Prop := x.run.run s = (.ok a, t)

theorem exists_yields {x : ExceptT ε (StateM σ) α} {s : σ} {a : α}
    (gives : Gives x.run s fun r _ => r = .ok a) : ∃ t, Yields x s a t :=
  ⟨(x.run.run s).2, Prod.ext gives rfl⟩

@[simp] theorem yields_pure (a b : α) (s t : σ) :
    Yields (pure a : ExceptT ε (StateM σ) α) s b t ↔ b = a ∧ t = s := by
  constructor
  · intro yields
    cases yields
    exact ⟨rfl, rfl⟩
  · rintro ⟨rfl, rfl⟩
    rfl

@[simp] theorem yields_throw (e : ε) (s t : σ) (a : α) :
    ¬ Yields (throw e : ExceptT ε (StateM σ) α) s a t := by
  intro yields
  cases yields

@[simp] theorem yields_bind (x : ExceptT ε (StateM σ) α) (f : α → ExceptT ε (StateM σ) β) (s t : σ)
    (b : β) : Yields (x >>= f) s b t ↔ ∃ a u, Yields x s a u ∧ Yields (f a) u b t := by
  unfold Yields
  rw [ExceptT.run_bind, StateT.run_bind]
  rcases x.run.run s with ⟨e | a, u⟩
  · constructor
    · intro yields
      cases yields
    · rintro ⟨a, u', given, -⟩
      cases given
  · constructor
    · intro yields
      exact ⟨a, u, rfl, yields⟩
    · rintro ⟨a', u', given, rest⟩
      cases given
      exact rest

@[simp] theorem yields_adapt (x : ExceptT ε (StateM σ) α) (f : ε → ε') (s t : σ) (a : α) :
    Yields (ExceptT.adapt f x) s a t ↔ Yields x s a t := by
  change ((x.run.run s).1.mapError f, (x.run.run s).2) = _ ↔ x.run.run s = _
  rcases x.run.run s with ⟨e | a', u⟩
  · constructor <;> (intro yields; cases yields)
  · constructor <;> (intro yields; cases yields; rfl)

@[simp] theorem yields_lift (r : Except ε α) (s t : σ) (a : α) :
    Yields (ExceptT.mk (pure r) : ExceptT ε (StateM σ) α) s a t ↔ r = .ok a ∧ t = s := by
  constructor
  · intro yields
    cases yields
    exact ⟨rfl, rfl⟩
  · rintro ⟨rfl, rfl⟩
    rfl

/-- The computation keeps an invariant of the state, whatever it answers. -/
def Keeps (inv : σ → Prop) (x : StateM σ α) : Prop := ∀ s, inv s → Gives x s fun _ t => inv t

theorem keeps_pure (inv : σ → Prop) (a : α) : Keeps inv (pure a) := fun _ holds => holds

theorem keeps_bind {inv : σ → Prop} {x : StateM σ α} {f : α → StateM σ β}
    (first : Keeps inv x) (rest : ∀ a, Keeps inv (f a)) : Keeps inv (x >>= f) :=
  fun s holds => rest _ _ (first s holds)

def zoom (get : τ → σ) (set : τ → σ → τ) (x : StateM σ α) : StateM τ α :=
  StateT.mk fun t => ((x.run (get t)).1, set t (x.run (get t)).2)

@[simp] theorem gives_zoom (get : τ → σ) (set : τ → σ → τ) (x : StateM σ α) (t : τ)
    (post : α → τ → Prop) :
    Gives (zoom get set x) t post ↔ Gives x (get t) fun a s => post a (set t s) := Iff.rfl

@[simp] theorem gives_get (s : σ) (post : σ → σ → Prop) : Gives get s post ↔ post s s := Iff.rfl

@[simp] theorem gives_modify (f : σ → σ) (s : σ) (post : PUnit → σ → Prop) :
    Gives (modify f) s post ↔ post ⟨⟩ (f s) := Iff.rfl

@[simp] theorem adapt_pure (f : ε → ε') (a : α) :
    ExceptT.adapt f (pure a : ExceptT ε Id α) = pure a := rfl

section Adapting
universe v
variable {m : Type → Type v} [Monad m] [LawfulMonad m]

theorem adapt_bind (f : ε → ε') (x : ExceptT ε m α) (g : α → ExceptT ε m β) :
    ExceptT.adapt f (x >>= g) = ExceptT.adapt f x >>= fun a => ExceptT.adapt f (g a) := by
  apply ExceptT.ext
  simp only [ExceptT.run_adapt, ExceptT.run_bind, map_bind, bind_map_left]
  refine bind_congr fun r => ?_
  cases r with
  | error e => simp [Except.mapError]
  | ok a => simp [Except.mapError]

theorem adapt_throw (f : ε → ε') (e : ε) :
    ExceptT.adapt f (throw e : ExceptT ε m α) = throw (f e) := by
  apply ExceptT.ext
  simp [ExceptT.run_adapt, Except.mapError]

theorem adapt_return (f : ε → ε') (a : α) :
    ExceptT.adapt f (pure a : ExceptT ε m α) = pure a := by
  apply ExceptT.ext
  simp [ExceptT.run_adapt, Except.mapError]

theorem adapt_lift (f : ε → ε') (r : Except ε α) :
    ExceptT.adapt f (ExceptT.mk (pure r) : ExceptT ε m α) = ExceptT.mk (pure (r.mapError f)) := by
  apply ExceptT.ext
  simp [ExceptT.run_adapt]

end Adapting

/-- Started in the invariant, the computation answers `v` and keeps the invariant. -/
def Returns (ok : σ → Prop) (x : ExceptT ε (StateM σ) α) (v : ExceptT ε Id α) : Prop :=
  ∀ s, ok s → Gives x.run s fun r t => r = v.run.run ∧ ok t

section
variable {ok : σ → Prop}

theorem returns_pure (a : α) : Returns (ε := ε) ok (pure a) (pure a) :=
  fun _ holds => ⟨rfl, holds⟩

theorem returns_throw (e : ε) :
    Returns ok (throw e : ExceptT ε (StateM σ) α) (throw e) :=
  fun _ holds => ⟨rfl, holds⟩

theorem returns_bind {x : ExceptT ε (StateM σ) α} {v : ExceptT ε Id α}
    {f : α → ExceptT ε (StateM σ) β} {g : α → ExceptT ε Id β} (first : Returns ok x v)
    (rest : ∀ a, v.run.run = .ok a → Returns ok (f a) (g a)) :
    Returns ok (x >>= f) (v >>= g) := by
  intro s holds
  rw [gives_run_bind]
  apply (first s holds).mono
  intro r t given
  obtain ⟨answered, kept⟩ := given
  rw [answered]
  rcases value : v.run.run with e | a
  · have whole : (v >>= g).run.run = .error e := by
      change Id.run (ExceptT.bindCont g (v.run.run)) = _
      rw [value]
      rfl
    exact ⟨whole.symm, kept⟩
  · have whole : (v >>= g).run.run = (g a).run.run := by
      change Id.run (ExceptT.bindCont g (v.run.run)) = _
      rw [value]
      rfl
    rw [whole]
    exact rest a value t kept

theorem returns_adapt {x : ExceptT ε (StateM σ) α} {v : ExceptT ε Id α} (f : ε → ε')
    (first : Returns ok x v) : Returns ok (ExceptT.adapt f x) (ExceptT.adapt f v) := by
  intro s holds
  obtain ⟨value, kept⟩ := first s holds
  exact ⟨congrArg (Except.mapError f) value, kept⟩

end
end Stateful

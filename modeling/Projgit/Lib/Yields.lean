import Projgit.Lib.Interleave

/- Programs that keep an invariant of the shared state and answer well, whatever the other
   threads do to the rest of it. -/
namespace Interleave
open LabelledRuns
variable {σ τ α β ε ε' κ : Type}

/-- The other threads keep an invariant and promise nothing else. -/
def Discipline.keeping (inv : σ → Prop) : Discipline σ :=
  ⟨inv, fun _ _ => True, fun _ => trivial, fun _ _ => trivial⟩

/-- Every action keeps the invariant, and every answer is a `good` one. -/
def Yields (inv : σ → Prop) (x : Prog σ α) (good : α → Prop) : Prop :=
  ∀ s, Ensures (.keeping inv) x s fun a _ => good a

section
variable {inv : σ → Prop} {good mid : α → Prop} {fine : β → Prop}

theorem yields_pure {a : α} (holds : good a) : Yields inv (pure a : Prog σ α) good :=
  fun _ => ensures_ret fun _ _ _ => holds

theorem yields_await {act : σ → Option (α × σ)}
    (each : ∀ s a t, inv s → act s = some (a, t) → inv t ∧ good a) :
    Yields inv (await act) good := by
  refine fun s => ensures_await fun t _ holds a u ran => ?_
  obtain ⟨kept, right⟩ := each t a u holds ran
  exact ⟨trivial, kept, fun _ _ _ => right⟩

theorem yields_lift {x : StateM σ α}
    (each : ∀ s, inv s → inv (x.run s).2 ∧ good (x.run s).1) :
    Yields inv (liftM x : Prog σ α) good := by
  refine fun s => ensures_lift fun t _ holds => ?_
  obtain ⟨kept, right⟩ := each t holds
  exact ⟨trivial, kept, fun _ _ _ => right⟩

theorem Yields.mono {x : Prog σ α} (yields : Yields inv x mid) (implies : ∀ a, mid a → good a) :
    Yields inv x good :=
  fun s => (yields s).mono fun a _ _ _ => implies a

theorem Yields.any {x : Prog σ α} (yields : Yields inv x good) :
    Yields inv x fun _ => True := yields.mono fun _ _ => trivial

theorem Yields.bind {x : Prog σ α} {f : α → Prog σ β} (first : Yields inv x mid)
    (rest : ∀ a, mid a → Yields inv (f a) fine) : Yields inv (x >>= f) fine :=
  fun s => (first s).bind fun a t _ _ holds => rest a holds t

theorem Yields.runBind {x : ExceptT ε (Prog σ) α} {f : α → ExceptT ε (Prog σ) β}
    {mid : Except ε α → Prop} {post : Except ε β → Prop} (first : Yields inv x.run mid)
    (failed : ∀ e, mid (.error e) → post (.error e))
    (rest : ∀ a, mid (.ok a) → Yields inv (f a).run post) : Yields inv (x >>= f).run post :=
  fun s => (first s).runBind (fun e _ _ _ => failed e) fun a t _ _ holds => rest a holds t

theorem Yields.runLift {x : Prog σ α} {f : α → ExceptT ε (Prog σ) β} {post : Except ε β → Prop}
    (first : Yields inv x mid) (rest : ∀ a, mid a → Yields inv (f a).run post) :
    Yields inv ((liftM x : ExceptT ε (Prog σ) α) >>= f).run post :=
  fun s => (first s).runLift fun a t _ _ holds => rest a holds t

theorem Yields.runAdapt {x : ExceptT ε (Prog σ) α} (f : ε → ε') {mid : Except ε α → Prop}
    {post : Except ε' α → Prop} (first : Yields inv x.run mid)
    (implies : ∀ r, mid r → post (r.mapError f)) : Yields inv (ExceptT.adapt f x).run post :=
  fun s => (first s).runAdapt f fun r _ _ _ => implies r

theorem Yields.runThen {x : ExceptT ε (Prog σ) α} {f : α → ExceptT ε (Prog σ) β}
    (first : Yields inv x.run fun _ => True) (rest : ∀ a, Yields inv (f a).run fun _ => True) :
    Yields inv (x >>= f).run fun _ => True :=
  first.runBind (fun _ _ => trivial) fun a _ => rest a

theorem Yields.zoom {get : τ → σ} {set : τ → σ → τ} {whole : τ → Prop} {x : Prog σ α}
    (yields : Yields inv x good) (get_set : ∀ t s, get (set t s) = s)
    (part : ∀ t, whole t → inv (get t)) (put : ∀ t s, whole t → inv s → whole (set t s)) :
    Yields whole (x.zoom get set) good := by
  have focus : Focus (.keeping inv) (.keeping whole) get set :=
    ⟨get_set, fun _ _ _ => trivial, part, fun t s holds _ kept => ⟨trivial, put t s holds kept⟩⟩
  exact fun t => (yields (get t)).zoom focus

end

section
variable {program : κ → Prog σ α} {outside : σ → ε → Option σ} {p : Pool σ κ α}

/-- Along every run that starts without threads the invariant holds and every answer that
    has been given is a good one. -/
theorem Pool.run_yields {inv : σ → Prop} {good : κ → α → Prop} {start : σ}
    {events : List (Event κ ε)} (tasks : ∀ task, Yields inv (program task) (good task))
    (calm : ∀ s e t, outside s e = some t → inv s → inv t) (begins : inv start)
    (run : exec (Pool.step program outside) ⟨start, []⟩ events = some p) :
    inv p.shared ∧ ∀ task a, (task, Prog.ret a) ∈ p.threads → good task a := by
  have fresh : Pool.Sound (.keeping inv) (fun task a _ => good task a)
      (⟨start, []⟩ : Pool σ κ α) := ⟨begins, fun _ _ member => nomatch member⟩
  have tame : Meets (Pool.step program outside) (Pool.Tame fun _ _ => True) ⟨start, []⟩ events :=
    Pool.tame_of_forall (fun _ _ _ => trivial) _
  have sound := Pool.run_sound (fun task s _ => tasks task s)
    (fun s e t _ happened holds => ⟨trivial, calm s e t happened holds⟩) run tame fresh
  exact ⟨sound.inv, fun _ _ done => sound.finished done⟩

end
end Interleave

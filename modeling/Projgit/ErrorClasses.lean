import Mathlib.Data.List.Infix
import Projgit.Lib.Runs
import Projgit.Lib.Substring
import Projgit.SingleFlight
import Projgit.GitCli
import Projgit.DaemonFetch

/-!
What coalescing does to the class of a fetch error. `do_or_join` hands every caller of a
flight the text of the leader's error; each of the three fetchers that coalesce then
guesses the class back from that text. `git_cli.rs` and `gix_fetcher.rs` look for the
names of the variants, which their `Display` texts do not have; `gvfs.rs` looks for
phrases of those texts.
-/
namespace ProjgitErrors
open LabelledRuns Substring ProjgitStore ProjgitCoalesce ProjgitGitCli

inductive ErrorClass where
  | refused | transport | notPresentAfterFetch | notHydratable | backend
  deriving DecidableEq

def classOf : FetcherError → ErrorClass
  | .refused _ _ => .refused
  | .transport _ _ => .transport
  | .notPresentAfterFetch _ => .notPresentAfterFetch
  | .notHydratable _ => .notHydratable
  | .backend _ _ => .backend

def subject : FetcherError → ObjectId
  | .refused oid _ | .transport oid _ | .notPresentAfterFetch oid | .notHydratable oid
  | .backend oid _ => oid

def reclassifyCoalescedError (oid : ObjectId) (message : String) : FetcherError :=
  if mentions message "remote refused object" || mentions message "returned 404" then
    .refused oid message
  else if mentions message "transport error" || mentions message "GVFS object endpoint" then
    .transport oid message
  else if mentions message "post-fetch verification failed" then .notPresentAfterFetch oid
  else .backend oid message

inductive Coalescing where
  | gitCli | gix | gvfs

/-- The `map_err` after `do_or_join`; the closure of `GixFetcher` has the same three tests
    as that of `GitCliFetcher`. -/
def Coalescing.retype : Coalescing → ObjectId → String → FetcherError
  | .gitCli | .gix => reclassify
  | .gvfs => reclassifyCoalescedError

def Coalescing.fetched (f : Coalescing) : Phase ObjectId Unit → Option (Except FetcherError Unit)
  | .returned _ oid _ result => some (result.mapError (f.retype oid))
  | _ => none

/-- However calls interleave: when the leader of a flight ran `raw_fetch` into `e`, every
    caller of that flight that has returned, the leader included, has an error of the
    class of `e` for the same object. -/
def KeepsClass (f : Coalescing) (e : FetcherError) : Prop :=
  ∀ acts m, exec step Machine.new acts = some m →
    ∀ d slot, Installed acts d (subject e) slot → .finish d (.error e.display) ∈ acts →
    ∀ c leader result, m.calls c = .returned leader (subject e) slot result →
      ∃ e', f.fetched (m.calls c) = some (.error e') ∧
        classOf e' = classOf e ∧ subject e' = subject e

theorem move_keeps_led {m t : Machine ObjectId Unit} {a : Action ObjectId Unit}
    (move : Move m a t) {c : CallId} {at_ : ObjectId × SlotId}
    (led : (m.calls c).led = some at_) : (t.calls c).led = some at_ := by
  cases move with
  | publish d key slot result phase =>
    by_cases same : c = d
    · subst same; simpa [phase, Phase.led] using led
    · simpa [same, (notifyAll_phase slot m.calls c).2.1] using led
  | _ d =>
    by_cases same : c = d
    · subst same; simp_all [Phase.led]
    · simpa [same] using led

theorem installed_led {acts : List (Action ObjectId Unit)} {m : Machine ObjectId Unit}
    (run : exec step Machine.new acts = some m) {d : CallId} {key : ObjectId} {slot : SlotId}
    (installed : Installed acts d key slot) : (m.calls d).led = some (key, slot) := by
  obtain ⟨before, after, s, rfl, reached, installs⟩ := installed
  obtain ⟨mid, first, rest⟩ := exec_append_some run
  obtain rfl : s = mid := Option.some.inj (reached.symm.trans first)
  obtain ⟨next, started, later⟩ := exec_cons rest
  have leads : (next.calls d).led = some (key, slot) := by
    cases step_move started with
    | join _ _ other fresh found => simp [Coalescer.installOrJoin, found] at installs
    | lead _ _ fresh missing =>
      simp only [Coalescer.installOrJoin, missing, Prod.mk.injEq, and_true] at installs
      simp [Phase.led, installs]
  have keeps : ∀ (u : Machine ObjectId Unit) a v, step u a = some v →
      (u.calls d).led = some (key, slot) → (v.calls d).led = some (key, slot) :=
    fun u a v taken led => move_keeps_led (step_move taken) led
  exact exec_keeps keeps later leads

theorem shared_text {acts : List (Action ObjectId Unit)} {m : Machine ObjectId Unit}
    (run : exec step Machine.new acts = some m) {d c : CallId} {key : ObjectId} {slot : SlotId}
    {shown result : Except String Unit} {leader : Bool} (installed : Installed acts d key slot)
    (finished : .finish d shown ∈ acts)
    (returned : m.calls c = .returned leader key slot result) : result = shown := by
  have inv := run_inv run
  have done := inv.settled_done c slot result (by rw [returned]; rfl)
  have computed := inv.leader_computed (installed_led run installed) done
  have mine := (computed_iff_finish run d shown).mpr finished
  exact Option.some.inj (computed.symm.trans mine)

def soloFlight (key : ObjectId) (result : Except String Unit) : List (Action ObjectId Unit) :=
  [.start 0 key, .finish 0 result, .publish 0, .evict 0]

theorem solo_flight (key : ObjectId) (result : Except String Unit) :
    ∃ m, exec step Machine.new (soloFlight key result) = some m ∧
      m.calls 0 = .returned true key 0 result := by
  refine ⟨_, rfl, ?_⟩
  simp [Machine.set, Machine.new, Coalescer.new]

theorem keeps_class_iff (f : Coalescing) (e : FetcherError) :
    KeepsClass f e ↔ classOf (f.retype (subject e) e.display) = classOf e ∧
      subject (f.retype (subject e) e.display) = subject e := by
  constructor
  · intro keeps
    obtain ⟨m, run, returned⟩ := solo_flight (subject e) (.error e.display)
    obtain ⟨e', fetched, same⟩ := keeps _ m run 0 0 ⟨[], _, _, rfl, rfl, rfl⟩
      (by simp [soloFlight]) 0 true _ returned
    rw [returned] at fetched
    obtain rfl : f.retype (subject e) e.display = e' :=
      Except.error.inj (Option.some.inj fetched)
    exact same
  · intro same acts m run d slot installed finished c leader result returned
    obtain rfl := shared_text run installed finished returned
    refine ⟨f.retype (subject e) e.display, ?_, same⟩
    rw [returned]
    rfl

def hexDigits : List Char := "0123456789abcdef".toList

theorem hex_digits (oid : ObjectId) : ∀ c ∈ oid.toHex.toList, c ∈ hexDigits := by
  have each : ∀ n < 16, hexDigit n ∈ hexDigits := by decide
  intro c member
  rw [ObjectId.toHex, String.toList_ofList, List.mem_flatMap] at member
  obtain ⟨b, -, digit⟩ := member
  have bound : b.toNat < 256 := b.toNat_lt
  simp only [List.mem_cons, List.not_mem_nil, or_false] at digit
  rcases digit with rfl | rfl
  · exact each _ (by omega)
  · exact each _ (by omega)

/-- A word that neither the heading of an error text nor an object id can hold: one of its
    parts between blanks is in neither. -/
def Foreign (heading word part : String) : Prop :=
  part.toList <:+: word.toList ∧ ' ' ∉ part.toList ∧ ¬ part.toList <:+: heading.toList ∧
    (∃ c ∈ part.toList, c ∉ hexDigits) ∧ ':' ∉ word.toList ∧ word.toList.head? ≠ some ' '

instance (heading word part : String) : Decidable (Foreign heading word part) :=
  -- Only the characters of the part are tried, not every character there is.
  haveI : Decidable (∃ c ∈ part.toList, c ∉ hexDigits) := List.decidableBEx _ _
  inferInstanceAs (Decidable (_ ∧ _ ∧ _ ∧ _ ∧ _ ∧ _))

theorem Foreign.not_in_heading {heading word part : String} (foreign : Foreign heading word part)
    (oid : ObjectId) : ¬ word.toList <:+: heading.toList ++ ' ' :: oid.toHex.toList := by
  obtain ⟨inside, joined, elsewhere, ⟨c, has, beyond⟩, -⟩ := foreign
  intro found
  rcases (infix_split joined).mp (inside.trans found) with early | late
  · exact elsewhere early
  · exact not_infix_of_lacking has (fun member => beyond (hex_digits oid c member)) late

/-- A foreign word stands in the text of an error only if it stands in the message. -/
theorem Foreign.mentions_iff {heading word part : String} (foreign : Foreign heading word part)
    (oid : ObjectId) (why : String) :
    mentions (heading ++ " " ++ oid.toHex ++ ": " ++ why) word = mentions why word := by
  have outside := foreign.not_in_heading oid
  obtain ⟨inside, -, -, ⟨c, has, -⟩, plain, start⟩ := foreign
  have text : (heading ++ " " ++ oid.toHex ++ ": " ++ why).toList =
      (heading.toList ++ ' ' :: oid.toHex.toList) ++ ':' :: ' ' :: why.toList := by
    simp [String.toList_append]
  unfold mentions
  rw [decide_eq_decide, text, infix_split plain, or_iff_right outside]
  cases letters : word.toList with
  | nil =>
    rw [letters, List.infix_nil] at inside
    rw [inside] at has
    cases has
  | cons first rest =>
    rw [letters] at start
    refine infix_cons_of_head ?_
    rintro rfl
    exact start rfl

theorem mentions_heading {heading word : String} (inside : word.toList <:+: heading.toList)
    (rest : String) : mentions (heading ++ rest) word = true := by
  rw [mentions, decide_eq_true_iff, String.toList_append]
  exact List.infix_append_of_infix_left inside

/-- The condition on the error `raw_fetch` returns under which its class survives. -/
def Recognised : Coalescing → FetcherError → Prop
  | .gitCli, .refused _ why | .gix, .refused _ why => mentions why "Refused"
  | .gitCli, .transport _ why | .gix, .transport _ why =>
    mentions why "Transport" ∧ ¬ mentions why "Refused"
  | .gitCli, .backend _ why | .gix, .backend _ why =>
    ¬ mentions why "Refused" ∧ ¬ mentions why "Transport" ∧
      ¬ mentions why "NotPresentAfterFetch"
  | .gvfs, .refused _ _ | .gvfs, .notPresentAfterFetch _ => True
  | .gvfs, .transport _ why =>
    ¬ mentions why "remote refused object" ∧ ¬ mentions why "returned 404"
  | .gvfs, .backend _ why =>
    ¬ mentions why "remote refused object" ∧ ¬ mentions why "returned 404" ∧
      ¬ mentions why "transport error" ∧ ¬ mentions why "GVFS object endpoint" ∧
      ¬ mentions why "post-fetch verification failed"
  | .gitCli, .notPresentAfterFetch _ | .gix, .notPresentAfterFetch _ | _, .notHydratable _ => False

theorem variant_name_foreign :
    ∀ heading ∈ ["remote refused object", "transport error fetching",
      "post-fetch verification failed for", "fetch backend error for"],
    ∀ word ∈ ["Refused", "Transport", "NotPresentAfterFetch"], Foreign heading word word := by
  decide +kernel

/-- The tests of `GitCliFetcher` and `GixFetcher` see only the message of an error. -/
theorem reclassify_shown {heading : String}
    (known : heading ∈ ["remote refused object", "transport error fetching",
      "post-fetch verification failed for", "fetch backend error for"])
    (oid : ObjectId) (why : String) :
    classOf (reclassify oid (heading ++ " " ++ oid.toHex ++ ": " ++ why)) =
      if mentions why "Refused" then .refused
      else if mentions why "Transport" then .transport
      else if mentions why "NotPresentAfterFetch" then .notPresentAfterFetch
      else .backend := by
  have word := variant_name_foreign heading known
  unfold reclassify
  rw [(word "Refused" (by simp)).mentions_iff, (word "Transport" (by simp)).mentions_iff,
    (word "NotPresentAfterFetch" (by simp)).mentions_iff]
  split
  · rfl
  · split
    · rfl
    · split <;> rfl

theorem display_refused (oid : ObjectId) (why : String) : (FetcherError.refused oid why).display =
    "remote refused object" ++ " " ++ oid.toHex ++ ": " ++ why := rfl

theorem display_transport (oid : ObjectId) (why : String) :
    (FetcherError.transport oid why).display =
      "transport error fetching" ++ " " ++ oid.toHex ++ ": " ++ why := rfl

theorem display_backend (oid : ObjectId) (why : String) : (FetcherError.backend oid why).display =
    "fetch backend error for" ++ " " ++ oid.toHex ++ ": " ++ why := rfl

theorem display_not_present (oid : ObjectId) : (FetcherError.notPresentAfterFetch oid).display =
    "post-fetch verification failed for" ++ " " ++ oid.toHex ++ ": " ++ "object still absent" := by
  have shown : (FetcherError.notPresentAfterFetch oid).display =
      "post-fetch verification failed for" ++ " " ++ oid.toHex ++
        (": " ++ "object still absent") := rfl
  exact shown.trans String.append_assoc.symm

theorem reclassify_class (e : FetcherError) :
    classOf (reclassify (subject e) e.display) = classOf e ↔ Recognised .gitCli e := by
  cases e with
  | refused oid why =>
    rw [display_refused, subject, reclassify_shown (by simp)]
    simp only [classOf, Recognised]
    generalize mentions why "Refused" = a, mentions why "Transport" = b,
      mentions why "NotPresentAfterFetch" = c
    revert a b c
    decide
  | transport oid why =>
    rw [display_transport, subject, reclassify_shown (by simp)]
    simp only [classOf, Recognised]
    generalize mentions why "Refused" = a, mentions why "Transport" = b,
      mentions why "NotPresentAfterFetch" = c
    revert a b c
    decide
  | notPresentAfterFetch oid =>
    rw [display_not_present, subject, reclassify_shown (by simp)]
    simp only [classOf, Recognised]
    decide +kernel
  | notHydratable oid =>
    simp only [classOf, Recognised, reclassify]
    split_ifs <;> simp
  | backend oid why =>
    rw [display_backend, subject, reclassify_shown (by simp)]
    simp only [classOf, Recognised]
    generalize mentions why "Refused" = a, mentions why "Transport" = b,
      mentions why "NotPresentAfterFetch" = c
    revert a b c
    decide

theorem phrase_foreign :
    (∀ heading ∈ ["transport error fetching", "post-fetch verification failed for",
        "fetch backend error for"],
      Foreign heading "remote refused object" "remote" ∧
        Foreign heading "returned 404" "returned") ∧
    (∀ heading ∈ ["post-fetch verification failed for", "fetch backend error for"],
      Foreign heading "transport error" "transport" ∧
        Foreign heading "GVFS object endpoint" "GVFS") ∧
    Foreign "fetch backend error for" "post-fetch verification failed" "post-fetch" := by
  decide +kernel

theorem absent_message_silent :
    ∀ word ∈ ["remote refused object", "returned 404", "transport error",
      "GVFS object endpoint"], mentions "object still absent" word = false := by
  decide +kernel

theorem coalesced_class (e : FetcherError) :
    classOf (reclassifyCoalescedError (subject e) e.display) = classOf e ↔
      Recognised .gvfs e := by
  obtain ⟨refusal, transfer, verification⟩ := phrase_foreign
  cases e with
  | refused oid why =>
    have found : mentions (FetcherError.refused oid why).display "remote refused object" := by
      rw [display_refused]
      simp only [String.append_assoc]
      exact mentions_heading (List.infix_refl _) _
    simp [reclassifyCoalescedError, found, classOf, Recognised]
  | transport oid why =>
    have found : mentions (FetcherError.transport oid why).display "transport error" := by
      rw [display_transport]
      simp only [String.append_assoc]
      exact mentions_heading (by decide +kernel) _
    obtain ⟨refused, gone⟩ := refusal "transport error fetching" (by simp)
    rw [reclassifyCoalescedError, found, display_transport, subject, refused.mentions_iff,
      gone.mentions_iff]
    simp only [Recognised]
    generalize mentions why "remote refused object" = a, mentions why "returned 404" = b
    cases a <;> cases b <;> simp [classOf]
  | notPresentAfterFetch oid =>
    have found : mentions (FetcherError.notPresentAfterFetch oid).display
        "post-fetch verification failed" := by
      rw [display_not_present]
      simp only [String.append_assoc]
      exact mentions_heading (by decide +kernel) _
    obtain ⟨refused, gone⟩ := refusal "post-fetch verification failed for" (by simp)
    obtain ⟨lost, endpoint⟩ := transfer "post-fetch verification failed for" (by simp)
    rw [reclassifyCoalescedError, found, display_not_present, refused.mentions_iff,
      gone.mentions_iff, lost.mentions_iff, endpoint.mentions_iff]
    have silent := absent_message_silent
    simp only [List.forall_mem_cons] at silent
    rw [silent.1, silent.2.1, silent.2.2.1, silent.2.2.2.1]
    simp [classOf, Recognised]
  | notHydratable oid =>
    simp only [classOf, Recognised, reclassifyCoalescedError]
    split_ifs <;> simp
  | backend oid why =>
    obtain ⟨refused, gone⟩ := refusal "fetch backend error for" (by simp)
    obtain ⟨lost, endpoint⟩ := transfer "fetch backend error for" (by simp)
    rw [reclassifyCoalescedError, display_backend, subject, refused.mentions_iff,
      gone.mentions_iff, lost.mentions_iff, endpoint.mentions_iff, verification.mentions_iff]
    simp only [Recognised]
    generalize mentions why "remote refused object" = a, mentions why "returned 404" = b,
      mentions why "transport error" = c, mentions why "GVFS object endpoint" = d,
      mentions why "post-fetch verification failed" = f
    cases a <;> cases b <;> cases c <;> cases d <;> cases f <;> simp [classOf]

theorem retype_subject (f : Coalescing) (oid : ObjectId) (text : String) :
    subject (f.retype oid text) = oid := by
  cases f with
  | gvfs =>
    simp only [Coalescing.retype, reclassifyCoalescedError]
    split_ifs <;> rfl
  | _ =>
    simp only [Coalescing.retype, reclassify]
    split_ifs <;> rfl

/-- The class of an error survives coalescing exactly when its message lets the fetcher
    recognise it. -/
theorem class_survives_iff (f : Coalescing) (e : FetcherError) :
    KeepsClass f e ↔ Recognised f e := by
  rw [keeps_class_iff, and_iff_left (retype_subject f (subject e) e.display)]
  cases f with
  | gitCli => exact reclassify_class e
  | gix =>
    rw [Coalescing.retype, reclassify_class]
    cases e <;> rfl
  | gvfs => exact coalesced_class e

def absentObject : ObjectId := ⟨List.replicate 20 7, by simp⟩

open ProjgitDaemon (cloneCat cloneGix)

/-- The child answers that the object is missing, which `raw_fetch` reports as a refusal;
    `fetch_object` returns a backend error. -/
theorem refusal_becomes_backend :
    ¬ KeepsClass .gitCli
        (.refused absentObject "git cat-file --batch-check reported missing") ∧
      ((rawFetch cloneCat cloneGix absentObject).run.alone
          (GitCli.open 1 (.withCapacities 4 64 64 4 ⟨false, []⟩))).map Prod.fst =
        some (.error (.refused absentObject "git cat-file --batch-check reported missing")) ∧
      ((fetchObject cloneCat cloneGix absentObject).run.alone
          (GitCli.open 1 (.withCapacities 4 64 64 4 ⟨false, []⟩))).map Prod.fst =
        some (.error (.backend absentObject ("remote refused object " ++ absentObject.toHex ++
          ": git cat-file --batch-check reported missing"))) := by
  refine ⟨?_, by decide +kernel, by decide +kernel⟩
  rw [keeps_class_iff]
  decide +kernel

end ProjgitErrors

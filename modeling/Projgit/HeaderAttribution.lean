import Projgit.Lib.HandOut
import Projgit.Lib.Ownership
import Projgit.BatchLines
import Projgit.PrefetchClaims
import Projgit.ChildStep
import Projgit.RepeatedIds

/-!
Which header `prefetch_headers` of the git CLI fetcher attributes to which id. The call
falls into three phases: what the store and the claims say before the exchange, the
exchange itself, and what is made of the child's lines afterwards. Nothing is assumed of
the lines; other threads may act at any time, as long as the disk holds the one set of
objects during the first phase and the other during the last.
-/
namespace ProjgitGitCli
open ProjgitStore HandOut Interleave LabelledRuns
variable {ω : Type}

section
variable (cat : CatFile ω) (G : Gix ω)

/-- Up to the exchange: the probes of local and of skipped ids, and the lead list. -/
def gather (oids : List ObjectId) : Prog (GitCli ω) (Probes × List ObjectId) := do
  let (present, toQuery) ← partitionLocal G oids
  let lead ← claim toQuery
  let found ← probeSkipped G lead toQuery (insertAll .present present ∅)
  return (found, lead)

def fileOutcome (lead : List ObjectId) (found : Probes) : BatchOutcome → Prog (GitCli ω) Probes
  | .spawnFailed why =>
    return insertAll (fun oid => .error oid (.backend oid ("spawn git cat-file: " ++ why)))
      lead found
  | .lines lines => probeLines cat G (lead.zip lines) found
  | .exhausted lastIoErr =>
    return insertAll (fun oid => .error oid (.transport oid
      ("git cat-file --batch-check (batch): " ++ lastIoErr.getD "exhausted retries"))) lead found

/-- From the outcome of the exchange to the answers. -/
def conclude (oids lead : List ObjectId) (found : Probes) (outcome : BatchOutcome) :
    Prog (GitCli ω) (List HeaderProbe) := do
  let found ← fileOutcome cat G lead found outcome
  unclaim lead
  return reorderProbes oids found

def exchange (lead : List ObjectId) : Prog (GitCli ω) BatchOutcome :=
  if lead.isEmpty then return .lines [] else askBatch cat lead 2 none

theorem prefetch_phases (oids : List ObjectId) :
    prefetchHeaders cat G oids = if oids.isEmpty then return [] else (do
      let (found, lead) ← gather G oids
      let outcome ← exchange cat lead
      conclude cat G oids lead found outcome) := by
  have filed : ∀ lead found, probeLead cat G lead found =
      (exchange cat lead >>= fun outcome => fileOutcome cat G lead found outcome) := by
    intro lead found
    unfold probeLead exchange
    split
    · rename_i empty
      rw [List.isEmpty_iff.mp empty, pure_bind]
      rfl
    · refine bind_congr fun outcome => ?_
      cases outcome <;> rfl
  unfold prefetchHeaders gather
  split
  · rfl
  · rw [bind_assoc]
    refine bind_congr fun parts => ?_
    obtain ⟨present, toQuery⟩ := parts
    simp only [bind_assoc, pure_bind, filed, conclude]

end

def residents (G : Gix ω) (set : ObjectId → Bool) : Discipline (GitCli ω) :=
  .shows (fun s => s.store.world) fun w => ∀ oid, G.Resident w oid ↔ set oid = true

variable {cat : CatFile ω} {G : Gix ω} {set : ObjectId → Bool}

theorem store_leaves_world {α : Type} {x : Prog (Store ω) α} (leaves : Leaves Store.world x) :
    Leaves (fun s : GitCli ω => s.store.world) (x.zoom GitCli.store GitCli.setStore) :=
  leaves.zoom fun _ _ same => same

theorem contains_ensures (oid : ObjectId) (s : GitCli ω) :
    Ensures (residents G set) ((theStore G).contains oid) s fun found _ => found = set oid := by
  have quiet : Leaves (fun s : GitCli ω => s.store.world) ((theStore G).contains oid) :=
    store_leaves_world (access_leaves G fun _ => rfl)
  intro t _ holds b u ran
  refine ⟨trivial, ?_, fun _ _ _ => ?_⟩
  · have same : u.store.world = t.store.world := quiet.1 t b u ran
    simp only [residents, Discipline.shows, same]
    exact holds
  · obtain ⟨⟨found, s'⟩, looked, same⟩ := Option.map_eq_some_iff.mp ran
    cases same
    cases looked
    have known := holds oid
    rw [Bool.eq_iff_iff, ← known]
    simp only [Gix.Resident]
    rcases G.tryFindObject t.store.world oid with e | _ | obj <;> simp

theorem partitionLocal_sorts (oids : List ObjectId) (s : GitCli ω) :
    Ensures (residents G set) (partitionLocal G oids) s fun parts _ =>
      (∀ oid ∈ parts.1, set oid = true) ∧ ∀ oid ∈ parts.2, oid ∈ oids ∧ set oid = false := by
  induction oids generalizing s with
  | nil => exact ensures_ret fun _ _ _ => ⟨nofun, nofun⟩
  | cons oid rest ih =>
    refine (contains_ensures oid s).stable.bind fun found t later holds known => ?_
    refine (ih t).stable.bind fun parts u _ _ sorted => ?_
    refine ensures_ret fun v next still => ?_
    obtain ⟨here, absent⟩ := sorted v next still
    have found_eq : found = set oid := known t (Discipline.refl _ t) holds
    cases found with
    | true =>
      refine ⟨fun other member => ?_, fun other member => ?_⟩
      · rcases List.mem_cons.mp member with rfl | old
        · exact found_eq.symm
        · exact here other old
      · exact ⟨List.mem_cons_of_mem _ (absent other member).1, (absent other member).2⟩
    | false =>
      refine ⟨here, fun other member => ?_⟩
      rcases List.mem_cons.mp member with rfl | old
      · exact ⟨List.mem_cons_self, found_eq.symm⟩
      · exact ⟨List.mem_cons_of_mem _ (absent other old).1, (absent other old).2⟩

theorem claim_leads (candidates : List ObjectId) (s : GitCli ω) :
    Ensures (residents G set) (claim candidates) s fun lead _ =>
      lead.Nodup ∧ ∀ oid ∈ lead, oid ∈ candidates := by
  refine ensures_await fun t _ holds lead u ran => ?_
  cases ran
  refine ⟨trivial, holds, fun _ _ _ => ⟨(claimAll_fresh candidates t.claims).1, ?_⟩⟩
  intro oid member
  rw [claimAll_lead, List.mem_eraseDups] at member
  exact (List.mem_filter.mp member).1

theorem probeSkipped_others (lead oids : List ObjectId) (found : Probes) (s : GitCli ω) :
    Ensures (residents G set) (probeSkipped G lead oids found) s fun found' _ =>
      ∀ oid ∈ lead, found'.lookup oid = found.lookup oid := by
  induction oids generalizing found s with
  | nil => exact ensures_ret fun _ _ _ _ _ => rfl
  | cons oid rest ih =>
    unfold probeSkipped
    split
    · exact ih found s
    · rename_i other
      have quiet : Leaves (fun s : GitCli ω => s.store.world) ((theStore G).header oid).run :=
        store_leaves_world (storeHeader_leaves G oid)
      refine (quiet.respects _ s).bind fun answer t _ _ _ => ?_
      refine (ih _ t).mono fun found' _ _ _ kept led member => ?_
      rw [kept led member]
      exact AList.lookup_insert_ne fun same => other (same ▸ member)

theorem insertAll_absent {probe : ObjectId → HeaderProbe} {oids : List ObjectId} {oid : ObjectId}
    (outside : oid ∉ oids) (found : Probes) :
    (insertAll probe oids found).lookup oid = found.lookup oid := by
  unfold insertAll
  induction oids generalizing found with
  | nil => rfl
  | cons other rest ih =>
    rw [List.mem_cons, not_or] at outside
    rw [List.foldl_cons, ih outside.2]
    exact AList.lookup_insert_ne outside.1

structure Gathered (oids : List ObjectId) (before : ObjectId → Bool)
    (gathered : Probes × List ObjectId) : Prop where
  distinct : gathered.2.Nodup
  asked : ∀ oid ∈ gathered.2, oid ∈ oids ∧ before oid = false
  unanswered : ∀ oid ∈ gathered.2, gathered.1.lookup oid = none
  filed : Filed HeaderProbe.oid gathered.1

theorem gather_gathers (oids : List ObjectId) (s : GitCli ω) :
    Ensures (residents G set) (gather G oids) s fun gathered _ => Gathered oids set gathered := by
  unfold gather
  refine (partitionLocal_sorts oids s).stable.bind fun parts t later holds sorted => ?_
  obtain ⟨present, toQuery⟩ := parts
  obtain ⟨here, absent⟩ := sorted t (Discipline.refl _ t) holds
  refine (claim_leads toQuery t).stable.bind fun lead u _ holds' led => ?_
  obtain ⟨distinct, within⟩ := led u (Discipline.refl _ u) holds'
  have start : Filed HeaderProbe.oid (insertAll .present present ∅) :=
    insertAll_filed (fun _ => rfl) present filed_empty
  refine ((probeSkipped_others lead toQuery _ u).and_anyone
    (probeSkipped_filed lead toQuery start u)).stable.bind fun found v _ holds'' known => ?_
  obtain ⟨others, filed⟩ := known v (Discipline.refl _ v) holds''
  refine ensures_ret fun _ _ _ =>
    ⟨distinct, fun oid member => absent oid (within oid member), ?_, filed⟩
  intro oid member
  rw [others oid member]
  refine (insertAll_absent (fun local' => ?_) ∅).trans (AList.lookup_empty oid)
  exact Bool.false_ne_true ((absent oid (within oid member)).2.symm.trans (here oid local'))

/-- What a line makes of its id, given what the disk holds when it is looked at. -/
def lineProbe (cat : CatFile ω) (after : ObjectId → Bool) (oid : ObjectId) (line : String) :
    HeaderProbe :=
  match parseLine cat oid line with
  | .ok (.header kind size) =>
    if after oid then .presentWithHeader oid kind size
    else .error oid (.notPresentAfterFetch oid)
  | .ok .missing => .error oid (.refused oid "git cat-file --batch-check reported missing")
  | .error e => .error oid e

theorem probeLine_reads (oid : ObjectId) (line : String) (s : GitCli ω) :
    Ensures (residents G set) (probeLine cat G oid line) s
      fun p _ => p = lineProbe cat set oid line := by
  unfold probeLine lineProbe
  rcases parseLine cat oid line with e | ⟨kind, size⟩ | _
  · exact ensures_ret fun _ _ _ => rfl
  · refine (contains_ensures oid s).stable.bind fun found t _ holds known => ?_
    obtain rfl : found = set oid := known t (Discipline.refl _ t) holds
    simp only
    split
    · exact ensures_ret fun _ _ _ => rfl
    · exact ensures_ret fun _ _ _ => rfl
  · exact ensures_ret fun _ _ _ => rfl

theorem lineProbe_oid (after : ObjectId → Bool) (oid : ObjectId) (line : String) :
    (lineProbe cat after oid line).oid = oid := by
  unfold lineProbe
  split
  · split <;> rfl
  · rfl
  · rfl

def fileLines (cat : CatFile ω) (after : ObjectId → Bool) (answers : List (ObjectId × String))
    (found : Probes) : Probes :=
  answers.foldl (fun found answer =>
    found.insert answer.1 (lineProbe cat after answer.1 answer.2)) found

theorem probeLines_reads (answers : List (ObjectId × String)) (found : Probes) (s : GitCli ω) :
    Ensures (residents G set) (probeLines cat G answers found) s
      fun found' _ => found' = fileLines cat set answers found := by
  induction answers generalizing found s with
  | nil => exact ensures_ret fun _ _ _ => rfl
  | cons answer rest ih =>
    refine (probeLine_reads answer.1 answer.2 s).stable.bind fun p t _ holds known => ?_
    obtain rfl := known t (Discipline.refl _ t) holds
    exact ih _ t

theorem fileLines_absent {after : ObjectId → Bool} {answers : List (ObjectId × String)}
    {oid : ObjectId} (outside : oid ∉ answers.map Prod.fst) (found : Probes) :
    (fileLines cat after answers found).lookup oid = found.lookup oid := by
  unfold fileLines
  induction answers generalizing found with
  | nil => rfl
  | cons answer rest ih =>
    rw [List.map_cons, List.mem_cons, not_or] at outside
    rw [List.foldl_cons, ih outside.2]
    exact AList.lookup_insert_ne outside.1

theorem fileLines_found {after : ObjectId → Bool} {answers : List (ObjectId × String)}
    (distinct : (answers.map Prod.fst).Nodup) {oid : ObjectId} {line : String}
    (answered : (oid, line) ∈ answers) (found : Probes) :
    (fileLines cat after answers found).lookup oid = some (lineProbe cat after oid line) := by
  induction answers generalizing found with
  | nil => cases answered
  | cons answer rest ih =>
    rw [List.map_cons, List.nodup_cons] at distinct
    rcases List.mem_cons.mp answered with rfl | later
    · exact (fileLines_absent distinct.1 _).trans (AList.lookup_insert found)
    · exact ih distinct.2 later _

theorem fileLines_filed {after : ObjectId → Bool} (answers : List (ObjectId × String))
    {found : Probes} (filed : Filed HeaderProbe.oid found) :
    Filed HeaderProbe.oid (fileLines cat after answers found) := by
  unfold fileLines
  induction answers generalizing found with
  | nil => exact filed
  | cons answer rest ih => exact ih (filed.insert (lineProbe_oid after answer.1 answer.2))

theorem zip_fst_sublist (lead : List ObjectId) (lines : List String) :
    ((lead.zip lines).map Prod.fst).Sublist lead := by
  induction lead generalizing lines with
  | nil => simp
  | cons oid rest ih =>
    cases lines with
    | nil => simp
    | cons line lines => exact (ih lines).cons_cons oid

theorem lineProbe_header {after : ObjectId → Bool} {oid : ObjectId} {line : String}
    {kind : ObjectKind} {size : Nat}
    (same : lineProbe cat after oid line = .presentWithHeader oid kind size) :
    HeaderLine oid kind size line ∧ after oid = true := by
  unfold lineProbe at same
  split at same
  · rename_i parsed
    split at same
    · rename_i here
      cases same
      exact ⟨(parse_header_iff oid line kind size).mp parsed, here⟩
    · cases same
  · cases same
  · cases same

theorem reorder_first {oids : List ObjectId} {i : Nat} {oid : ObjectId} {p : HeaderProbe}
    {found : Probes} (here : oids[i]? = some oid) (first : oid ∉ oids.take i)
    (stored : found.lookup oid = some p) : (reorderProbes oids found)[i]? = some p := by
  rw [reorderProbes_eq, handOut_getElem?, here, Option.map_some, if_neg first, stored,
    Option.getD_some]

theorem reorder_header {oids : List ObjectId} {found : Probes} {oid : ObjectId}
    {kind : ObjectKind} {size : Nat} (filed : Filed HeaderProbe.oid found)
    (member : .presentWithHeader oid kind size ∈ reorderProbes oids found) :
    found.lookup oid = some (.presentWithHeader oid kind size) := by
  rw [reorderProbes_eq] at member
  obtain ⟨i, answered⟩ := List.mem_iff_getElem?.mp member
  rw [handOut_getElem?, Option.map_eq_some_iff] at answered
  obtain ⟨key, -, told⟩ := answered
  split at told
  · cases told
  · cases stored : found.lookup key with
    | none =>
      rw [stored, Option.getD_none] at told
      cases told
    | some p =>
      rw [stored, Option.getD_some] at told
      subst told
      obtain rfl : oid = key := filed key _ stored
      exact stored

/-- The header of a led id comes from the line at its position. -/
def FromItsLine (lead : List ObjectId) (outcome : BatchOutcome) (after : ObjectId → Bool)
    (probes : List HeaderProbe) : Prop :=
  ∀ oid ∈ lead, ∀ kind size, .presentWithHeader oid kind size ∈ probes →
    ∃ (lines : List String) (i : Nat) (line : String), outcome = .lines lines ∧
      lead[i]? = some oid ∧ lines[i]? = some line ∧
      HeaderLine oid kind size line ∧ after oid = true

/-- What the child knows of an object, as the first answer for its id. -/
def trueProbe (truth : ObjectId → Option (ObjectKind × Nat)) (oid : ObjectId) : HeaderProbe :=
  match truth oid with
  | some (kind, size) => .presentWithHeader oid kind size
  | none => .error oid (.refused oid "git cat-file --batch-check reported missing")

/-- Honest lines for objects that are visible afterwards give every led id its true header. -/
def TrueToHonest (oids lead : List ObjectId) (outcome : BatchOutcome) (after : ObjectId → Bool)
    (probes : List HeaderProbe) : Prop :=
  ∀ truth : ObjectId → Option (ObjectKind × Nat),
    (∀ oid kind size, truth oid = some (kind, size) → size < 2 ^ 64) →
    outcome = .lines (lead.map (honestLine truth)) →
    (∀ oid ∈ lead, (truth oid).isSome → after oid = true) →
    ∀ oid ∈ lead, ∀ i : Nat, oids[i]? = some oid → oid ∉ oids.take i →
      probes[i]? = some (trueProbe truth oid)

variable {oids lead : List ObjectId} {found : Probes} {after : ObjectId → Bool}

theorem from_its_line {lines : List String} (distinct : lead.Nodup)
    (unanswered : ∀ oid ∈ lead, found.lookup oid = none) (filed : Filed HeaderProbe.oid found) :
    FromItsLine lead (.lines lines) after
      (reorderProbes oids (fileLines cat after (lead.zip lines) found)) := by
  intro oid led kind size reported
  have stored := reorder_header (fileLines_filed _ filed) reported
  by_cases covered : oid ∈ (lead.zip lines).map Prod.fst
  · obtain ⟨⟨other, line⟩, paired, rfl⟩ := List.mem_map.mp covered
    obtain ⟨i, placed⟩ := List.mem_iff_getElem?.mp paired
    obtain ⟨here, there⟩ := List.getElem?_zip_eq_some.mp placed
    rw [fileLines_found ((zip_fst_sublist lead lines).nodup distinct) paired,
      Option.some.injEq] at stored
    obtain ⟨read, visible⟩ := lineProbe_header stored
    exact ⟨lines, i, line, rfl, here, there, read, visible⟩
  · rw [fileLines_absent covered, unanswered oid led] at stored
    cases stored

theorem true_to_honest (distinct : lead.Nodup) {outcome : BatchOutcome} :
    ∀ lines, outcome = .lines lines → TrueToHonest oids lead outcome after
      (reorderProbes oids (fileLines cat after (lead.zip lines) found)) := by
  rintro lines rfl truth bounded honest visible oid led i here first
  obtain rfl := BatchOutcome.lines.inj honest
  have paired : (oid, honestLine truth oid) ∈ lead.zip (lead.map (honestLine truth)) := by
    rw [List.zip_map_right, List.mem_map]
    refine ⟨(oid, oid), ?_, rfl⟩
    obtain ⟨k, at_k⟩ := List.mem_iff_getElem?.mp led
    exact List.mem_iff_getElem?.mpr ⟨k, List.getElem?_zip_eq_some.mpr ⟨at_k, at_k⟩⟩
  refine reorder_first here first
    ((fileLines_found ((zip_fst_sublist lead _).nodup distinct) paired found).trans ?_)
  cases known : truth oid with
  | none => simp only [lineProbe, trueProbe, honest_missing known, known]
  | some header =>
    obtain ⟨kind, size⟩ := header
    have read : parseLine cat oid (honestLine truth oid) = .ok (.header kind size) :=
      (parse_header_iff oid _ kind size).mpr
        (honest_header known (bounded oid kind size known))
    have here := visible oid led (by simp [known])
    simp only [lineProbe, trueProbe, read, known, here, if_true]

theorem insertAll_present {probe : ObjectId → HeaderProbe} {oids : List ObjectId} {oid : ObjectId}
    (inside : oid ∈ oids) (found : Probes) :
    (insertAll probe oids found).lookup oid = some (probe oid) := by
  unfold insertAll
  induction oids generalizing found with
  | nil => cases inside
  | cons other rest ih =>
    rw [List.foldl_cons]
    by_cases later : oid ∈ rest
    · exact ih later _
    · obtain rfl := (List.mem_cons.mp inside).resolve_right later
      exact (insertAll_absent later _).trans (AList.lookup_insert found)

theorem failed_from_its_line {why : ObjectId → FetcherError} {outcome : BatchOutcome}
    (filed : Filed HeaderProbe.oid found) :
    FromItsLine lead outcome after
      (reorderProbes oids (insertAll (fun oid => .error oid (why oid)) lead found)) := by
  intro oid led kind size reported
  have stored := reorder_header (insertAll_filed (fun _ => rfl) lead filed) reported
  rw [insertAll_present led] at stored
  cases stored

theorem unclaim_leaves (lead : List ObjectId) :
    Leaves (fun s : GitCli ω => s.store.world) (unclaim lead) := by
  unfold unclaim
  split
  · exact leaves_pure _
  · refine leaves_await fun s a t ran => ?_
    cases ran
    rfl

theorem conclude_attributes {before : ObjectId → Bool} {gathered : Probes × List ObjectId}
    (ready : Gathered oids before gathered) (outcome : BatchOutcome) (s : GitCli ω) :
    Ensures (residents G after) (conclude cat G oids gathered.2 gathered.1 outcome) s
      fun probes _ => FromItsLine gathered.2 outcome after probes ∧
        TrueToHonest oids gathered.2 outcome after probes := by
  obtain ⟨found, lead⟩ := gathered
  have finish : ∀ (probes : Probes) (t : GitCli ω),
      FromItsLine lead outcome after (reorderProbes oids probes) →
      TrueToHonest oids lead outcome after (reorderProbes oids probes) →
      Ensures (residents G after)
        (do unclaim lead; return reorderProbes oids probes : Prog (GitCli ω) _) t
        fun probes _ => FromItsLine lead outcome after probes ∧
          TrueToHonest oids lead outcome after probes := fun probes t one other =>
    ((unclaim_leaves lead).respects _ t).bind fun _ _ _ _ _ => ensures_ret fun _ _ _ => ⟨one, other⟩
  unfold conclude
  cases outcome with
  | spawnFailed why => exact finish _ s (failed_from_its_line ready.filed) (by rintro _ _ ⟨⟩)
  | exhausted why => exact finish _ s (failed_from_its_line ready.filed) (by rintro _ _ ⟨⟩)
  | lines lines =>
    refine (probeLines_reads (lead.zip lines) found s).stable.bind fun probes t _ holds known => ?_
    obtain rfl := known t (Discipline.refl _ t) holds
    exact finish _ t (from_its_line ready.distinct ready.unanswered ready.filed)
      (true_to_honest ready.distinct lines rfl)

section
variable {cat : CatFile ω} {G : Gix (Ledger ω)} {kind : ObjectKind} {size : Nat}
  {lead : List ObjectId} {found : Probes} {s t : GitCli (Ledger ω)}

/-- The calls of the pool, each with the list that it led. -/
def leading (cat : CatFile ω) (G : Gix (Ledger ω)) :
    CatCall → Prog (GitCli (Ledger ω)) (List ObjectId × CatAnswer)
  | .rawFetch oid => return ([], .fetched (← (rawFetch cat.ledgered G oid).run))
  | .prefetchHeaders oids =>
    if oids.isEmpty then return ([], .probes [])
    else do
      let (found, lead) ← gather G oids
      let outcome ← exchange cat.ledgered lead
      let probes ← conclude cat.ledgered G oids lead found outcome
      return (lead, .probes probes)

theorem leading_plain (call : CatCall) :
    Prod.snd <$> leading cat G call = catProgram cat G call := by
  cases call with
  | rawFetch oid => simp [leading, catProgram]
  | prefetchHeaders oids =>
    simp only [leading, catProgram, prefetch_phases]
    split
    · rfl
    · simp

def CatAnswer.headers : CatAnswer → List (ObjectId × ObjectKind × Nat)
  | .fetched _ => []
  | .probes found => found.filterMap fun p => match p with
    | .presentWithHeader oid kind size => some (oid, kind, size)
    | _ => none

def ReadOff (s : GitCli (Ledger ω)) (oid : ObjectId) (kind : ObjectKind) (size : Nat) : Prop :=
  ∃ line, AnswerTo s oid line ∧ HeaderLine oid kind size line

theorem ReadOff.later {oid : ObjectId} (read : ReadOff s oid kind size) (grow : LogsGrow s t) :
    ReadOff t oid kind size := by
  obtain ⟨line, answer, header⟩ := read
  exact ⟨line, answer.later grow, header⟩

abbrev LedHeaders (lead : List ObjectId) (kind : ObjectKind) (size : Nat) (found : Probes)
    (s : GitCli (Ledger ω)) : Prop :=
  Backed (fun p => ∃ oid ∈ lead, p = .presentWithHeader oid kind size)
    (fun oid => ReadOff s oid kind size) found

theorem LedHeaders.later (led : LedHeaders lead kind size found s) (grow : LogsGrow s t) :
    LedHeaders lead kind size found t := led.mono fun _ read => read.later grow

theorem probeSkipped_led (oids : List ObjectId) (s : GitCli (Ledger ω))
    (led : LedHeaders lead kind size found s) :
    Secures (catCustody ω) (probeSkipped G lead oids found) .nothing s
      fun probes held t => held = .nothing ∧ LedHeaders lead kind size probes t := by
  induction oids generalizing found s with
  | nil => exact secures_ret fun t later => ⟨rfl, led.later later.onward⟩
  | cons oid rest ih =>
    unfold probeSkipped
    split
    · exact ih s led
    · rename_i skipped
      apply (secures_of_leaves catCustody_seen (header_leaves oid)).bind
      rintro (e | ⟨kind', size'⟩) held t - onward ⟨rfl, -⟩
      all_goals
        refine ih t ((led.later onward).insert oid ?_)
        rintro ⟨other, member, same⟩
        cases same
      exact absurd member skipped

theorem probeLine_led (oid : ObjectId) (line : String) (s : GitCli (Ledger ω))
    (answer : AnswerTo s oid line) :
    Secures (catCustody ω) (probeLine cat.ledgered G oid line) .nothing s
      fun p held t => held = .nothing ∧
        ((∃ other ∈ lead, p = .presentWithHeader other kind size) → ReadOff t p.oid kind size) := by
  unfold probeLine
  split
  · rename_i kind' size' parsed
    apply (secures_of_leaves catCustody_seen (contains_leaves oid)).bind
    rintro here held t - onward ⟨rfl, -⟩
    split
    · refine secures_ret fun u next => ⟨rfl, ?_⟩
      rintro ⟨other, -, same⟩
      cases same
      exact ⟨line, (answer.later onward).later next.onward, (parse_header_iff _ _ _ _).mp parsed⟩
    · exact secures_ret fun _ _ => ⟨rfl, fun ⟨_, _, same⟩ => nomatch same⟩
  · exact secures_ret fun _ _ => ⟨rfl, fun ⟨_, _, same⟩ => nomatch same⟩
  · exact secures_ret fun _ _ => ⟨rfl, fun ⟨_, _, same⟩ => nomatch same⟩

theorem probeLines_led (answers : List (ObjectId × String)) (s : GitCli (Ledger ω))
    (answered : ∀ a ∈ answers, AnswerTo s a.1 a.2) (led : LedHeaders lead kind size found s) :
    Secures (catCustody ω) (probeLines cat.ledgered G answers found) .nothing s
      fun probes held t => held = .nothing ∧ LedHeaders lead kind size probes t := by
  induction answers generalizing found s with
  | nil => exact secures_ret fun t later => ⟨rfl, led.later later.onward⟩
  | cons answer rest ih =>
    apply (probeLine_led answer.1 answer.2 s (answered answer List.mem_cons_self)).bind
    rintro p held t - onward ⟨rfl, read⟩
    refine ih t (fun a later => ?_) ((led.later onward).insert answer.1 read)
    exact (answered a (List.mem_cons_of_mem _ later)).later onward

theorem exchange_secures (lead : List ObjectId) (s : GitCli (Ledger ω)) :
    Secures (catCustody ω) (exchange cat.ledgered lead) .nothing s
      fun outcome held t => held = .nothing ∧ ∀ lines, outcome = .lines lines →
        List.Forall₂ (AnswerTo t) lead lines := by
  unfold exchange
  split
  · rename_i empty
    refine secures_ret fun _ _ => ⟨rfl, fun lines same => ?_⟩
    cases same
    rw [List.isEmpty_iff.mp empty]
    exact .nil
  · exact askBatch_secures lead 2 none s

theorem fileOutcome_led {outcome : BatchOutcome} (s : GitCli (Ledger ω))
    (answered : ∀ lines, outcome = .lines lines → List.Forall₂ (AnswerTo s) lead lines)
    (led : LedHeaders lead kind size found s) :
    Secures (catCustody ω) (fileOutcome cat.ledgered G lead found outcome) .nothing s
      fun probes held t => held = .nothing ∧ LedHeaders lead kind size probes t := by
  unfold fileOutcome
  cases outcome with
  | spawnFailed why =>
    exact secures_ret fun t later => ⟨rfl, (led.later later.onward).insertAll lead
      fun _ _ ⟨_, _, same⟩ => nomatch same⟩
  | exhausted why =>
    exact secures_ret fun t later => ⟨rfl, (led.later later.onward).insertAll lead
      fun _ _ ⟨_, _, same⟩ => nomatch same⟩
  | lines lines =>
    refine probeLines_led (lead.zip lines) s (fun a member => ?_) led
    exact (List.forall₂_iff_zip.mp (answered lines rfl)).2 member

theorem unclaim_pipes (lead : List ObjectId) :
    Leaves GitCli.pipes (unclaim lead : Prog (GitCli (Ledger ω)) Unit) := by
  unfold unclaim
  split
  · exact leaves_pure _
  · refine leaves_await fun s a t ran => ?_
    cases ran
    rfl

theorem leading_secures (call : CatCall) (s : GitCli (Ledger ω)) :
    Secures (catCustody ω) (leading cat G call) .nothing s
      fun told _ t => ∀ oid ∈ told.1, (oid, kind, size) ∈ told.2.headers →
        ReadOff t oid kind size := by
  cases call with
  | rawFetch oid =>
    apply (rawFetchFrom_secures oid 2 none s).bind
    rintro r held t - - -
    exact secures_ret fun _ _ _ among => nomatch among
  | prefetchHeaders oids =>
    simp only [leading, gather]
    split
    · exact secures_ret fun _ _ _ among => nomatch among
    · simp only [bind_assoc, pure_bind]
      apply (secures_of_leaves catCustody_seen (partitionLocal_leaves oids)).bind
      rintro ⟨present, toQuery⟩ held t - - ⟨rfl, -⟩
      apply (secures_of_leaves catCustody_seen (claim_leaves toQuery)).bind
      rintro lead held u - - ⟨rfl, -⟩
      have start : LedHeaders lead kind size (insertAll .present present ∅) u :=
        (backed_empty _ _).insertAll present fun _ _ ⟨_, _, same⟩ => nomatch same
      apply (probeSkipped_led toQuery u start).bind
      rintro found held v - - ⟨rfl, skipped⟩
      apply (exchange_secures lead v).bind
      rintro outcome held x - onward ⟨rfl, answered⟩
      unfold conclude
      simp only [bind_assoc, pure_bind]
      apply (fileOutcome_led x answered (skipped.later onward)).bind
      rintro probes held y - - ⟨rfl, led⟩
      apply (secures_of_leaves catCustody_seen (unclaim_pipes lead)).bind
      rintro - held z - onward ⟨rfl, -⟩
      refine secures_ret fun w next oid among member => ?_
      obtain ⟨p, inside, same⟩ := List.mem_filterMap.mp member
      have reordered := ((led.later onward).later next.onward).reorder
        (fun _ ⟨_, _, same⟩ => nomatch same) oids p inside
      cases p with
      | presentWithHeader other kind' size' =>
        cases same
        exact reordered ⟨oid, among, rfl⟩
      | present other => cases same
      | headerOnly other kind' size' => cases same
      | error other e => cases same

theorem run_reads_off {poolSize trees blobBytes perEntry headers : Nat} {w : ω}
    {events : List (Event CatCall ω)}
    {p : Pool (GitCli (Ledger ω)) CatCall (List ObjectId × CatAnswer)}
    (run : exec (Pool.step (leading cat G) elsewhere)
      ⟨GitCli.open poolSize (.withCapacities trees blobBytes perEntry headers ⟨w, []⟩), []⟩
      events = some p) {call : CatCall} {answer : CatAnswer}
    (done : (call, .ret (lead, answer)) ∈ p.threads) {oid : ObjectId} (led : oid ∈ lead)
    (reported : (oid, kind, size) ∈ answer.headers) : ReadOff p.shared oid kind size := by
  obtain ⟨held, secure⟩ := Pool.run_secure (fun call s _ => leading_secures call s) elsewhere_calm
    run (open_secure poolSize _ _)
  obtain ⟨i, found⟩ := List.mem_iff_getElem?.mp done
  exact secure.finished found oid led reported

end

theorem honest_header_only {truth : ObjectId → Option (ObjectKind × Nat)}
    (bounded : ∀ oid kind size, truth oid = some (kind, size) → size < 2 ^ 64) {oid : ObjectId}
    {kind : ObjectKind} {size : Nat} (header : HeaderLine oid kind size (honestLine truth oid)) :
    truth oid = some (kind, size) := by
  have read := (@parse_header_iff _ ProjgitDaemon.cloneCat oid _ kind size).mpr header
  cases known : truth oid with
  | none =>
    rw [honest_missing known] at read
    cases read
  | some other =>
    obtain ⟨kind', size'⟩ := other
    have first := (@parse_header_iff _ ProjgitDaemon.cloneCat oid _ kind' size').mpr
      (honest_header known (bounded oid kind' size' known))
    cases first.symm.trans read
    rfl

/-- The call is its three phases. With any objects on disk before the exchange and after it
    and any outcome of the exchange, whatever other threads do meanwhile, the header of a
    led id comes from the line at its position, and honest lines give every led id its true
    header. Along any run of a pool the header of a led id has been read off a line that a
    child answered to that id; so it is the true one if the children are honest. -/
theorem headers_attributed (cat : CatFile ω) (G : Gix ω) (oids : List ObjectId)
    (before after : ObjectId → Bool) (s : GitCli ω) :
    (prefetchHeaders cat G oids = if oids.isEmpty then return [] else (do
      let (found, lead) ← gather G oids
      let outcome ← exchange cat lead
      conclude cat G oids lead found outcome)) ∧
    (Ensures (residents G before) (gather G oids) s fun gathered _ =>
      ∀ (outcome : BatchOutcome) (t : GitCli ω), Ensures (residents G after)
        (conclude cat G oids gathered.2 gathered.1 outcome) t fun probes _ =>
          FromItsLine gathered.2 outcome after probes ∧
          TrueToHonest oids gathered.2 outcome after probes) ∧
    ∀ G : Gix (Ledger ω), (∀ call, Prod.snd <$> leading cat G call = catProgram cat G call) ∧
      ∀ (poolSize trees blobBytes perEntry headers : Nat) (w : ω)
        (events : List (Event CatCall ω))
        (p : Pool (GitCli (Ledger ω)) CatCall (List ObjectId × CatAnswer)),
        exec (Pool.step (leading cat G) elsewhere)
          ⟨GitCli.open poolSize (.withCapacities trees blobBytes perEntry headers ⟨w, []⟩), []⟩
          events = some p →
        ∀ call lead answer, (call, .ret (lead, answer)) ∈ p.threads →
          ∀ oid ∈ lead, ∀ kind size, (oid, kind, size) ∈ answer.headers →
            ReadOff p.shared oid kind size ∧
            ∀ truth : ObjectId → Option (ObjectKind × Nat),
              (∀ oid kind size, truth oid = some (kind, size) → size < 2 ^ 64) →
              (∀ oid line, AnswerTo p.shared oid line → line = honestLine truth oid) →
              truth oid = some (kind, size) := by
  refine ⟨prefetch_phases cat G oids, (gather_gathers oids s).mono ?_, fun G => ⟨leading_plain, ?_⟩⟩
  · intro gathered t _ _ ready outcome u
    exact conclude_attributes ready outcome u
  · intro poolSize trees blobBytes perEntry headers w events p run call lead answer done oid led
      kind size reported
    have read := run_reads_off run done led reported
    refine ⟨read, fun truth bounded honest => ?_⟩
    obtain ⟨line, answered, header⟩ := read
    rw [honest oid line answered] at header
    exact honest_header_only bounded header

open ProjgitDaemon (Clone emptyBlob cloneCat cloneGix)

def leadingStart : Pool (GitCli (Ledger Clone)) CatCall (List ObjectId × CatAnswer) :=
  ⟨GitCli.open 2 (.withCapacities 4 64 64 4 ⟨⟨false, []⟩, []⟩), []⟩

/-- A fetch that ends in a refusal, and a batch that leads the refused id and a blob. -/
def twoLed : List (Event CatCall Clone) :=
  .start (.rawFetch (fixtureId 9)) :: List.replicate 10 (.advance 0) ++
    .start (.prefetchHeaders [fixtureId 9, emptyBlob]) :: List.replicate 16 (.advance 1)

theorem twoLed_result : ((exec (Pool.step (leading cloneCat ledgerGix) elsewhere) leadingStart
    twoLed).bind fun p => p.outcomes[1]?.join.map fun told => (told.1, told.2.headers)) =
      some ([fixtureId 9, emptyBlob], [(emptyBlob, .blob, 0)]) := by
  decide +kernel

theorem led_header_is_read_off :
    ∃ p, exec (Pool.step (leading cloneCat ledgerGix) elsewhere) leadingStart twoLed = some p ∧
      ReadOff p.shared emptyBlob .blob 0 := by
  obtain ⟨p, run, result⟩ := Option.bind_eq_some_iff.mp twoLed_result
  obtain ⟨⟨lead, answer⟩, told, same⟩ := Option.map_eq_some_iff.mp result
  obtain ⟨rfl, headers⟩ := Prod.mk.inj same
  obtain ⟨call, finished⟩ := Pool.returned_of_outcomes (Option.join_eq_some_iff.mp told)
  have reported : (emptyBlob, .blob, 0) ∈ answer.headers := by
    rw [headers]
    exact List.mem_singleton_self _
  refine ⟨p, run, ?_⟩
  exact (((headers_attributed cloneCat cloneGix [] (fun _ => true) (fun _ => true)
    (GitCli.open 2 (.withCapacities 4 64 64 4 ⟨false, []⟩))).2.2 ledgerGix).2 2 4 64 64 4 _ twoLed p
    run call _ answer (List.mem_of_getElem? finished) emptyBlob (by simp) .blob 0 reported).1

end ProjgitGitCli

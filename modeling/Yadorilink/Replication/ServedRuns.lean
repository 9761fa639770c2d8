import Yadorilink.Replication.Serving

/-! An answer is one run of deltas for each author of the frontier, in the order
of the authors. A run begins right after the position the requester named, has no
gap, and ends for a reason that can be read off the store. -/

namespace Yadorilink

open Std List

/-- Why the run of an author ends where it does. -/
inductive RunEnd where
  | withheld
  | frontier
  | unpublished
  | full
deriving DecidableEq

/-- What an answer holds of one author. -/
structure AuthorRun where
  author : AuthorId
  entries : List DeltaBatchEntry
  end_ : RunEnd
deriving DecidableEq

section Runs

variable (crypto : Crypto) (store : Store) (device : DeviceId) (limit maxBytes : Nat)

def answering (entries : List DeltaBatchEntry) (tail : List AuthorId) : Serving :=
  ⟨⟨entries, tail⟩, (entries.map (DeltaBatchEntry.bytes crypto)).sum⟩

/-- An answer of these entries has reached the limit or the byte budget. -/
def Spent (entries : List DeltaBatchEntry) : Prop :=
  limit ≤ entries.length ∨ maxBytes ≤ (entries.map (DeltaBatchEntry.bytes crypto)).sum

/-- The run ends for the reason it gives, as the entries of earlier authors and
the author's `position` have it. -/
def AuthorRun.Ends (since position : Nat) (earlier : List DeltaBatchEntry) (run : AuthorRun) :
    Prop :=
  match run.end_ with
  | .withheld => withheldOwnDevice store device = some run.author.device
  | .frontier => position ≤ since + run.entries.length
  | .unpublished =>
    ¬Spent crypto limit maxBytes (earlier ++ run.entries) ∧
      since + run.entries.length < position ∧
      ∃ body, store.bodies[(⟨run.author, since + run.entries.length + 1⟩ : Dot)]? = some body ∧
        store.published[body.delta.deltaHash crypto]? = none
  | .full => Spent crypto limit maxBytes (earlier ++ run.entries)

/-- The run is the author's logged deltas with their evidence, one after another
from `since` on and none beyond the frontier. -/
structure AuthorRun.Serves (since position : Nat) (earlier : List DeltaBatchEntry)
    (run : AuthorRun) : Prop where
  logged : List.Forall₂ (fun seq entry => entryAt crypto store ⟨run.author, seq⟩ = some entry)
    (List.range' (since + 1) run.entries.length) run.entries
  within : run.entries.length ≤ position - since
  ends : run.Ends crypto store device limit maxBytes since position earlier
  withheld : withheldOwnDevice store device = some run.author.device →
    run.entries = [] ∧ run.end_ ≠ .unpublished

/-- The authors whose runs an unpublished delta ended. -/
def unpublishedAuthors (runs : List AuthorRun) : List AuthorId :=
  (runs.filter fun run => run.end_ = .unpublished).map AuthorRun.author

variable {crypto store device limit maxBytes} {earlier : List DeltaBatchEntry}
  {tail : List AuthorId}

theorem answering_full : (answering crypto earlier tail).full limit maxBytes = true ↔
    Spent crypto limit maxBytes earlier := by
  simp only [Serving.full, Bool.or_eq_true, decide_eq_true_eq]
  rfl

theorem answering_push (entry : DeltaBatchEntry) :
    (answering crypto earlier tail).push crypto entry =
      answering crypto (earlier ++ [entry]) tail := by
  simp [Serving.push, answering]

theorem Spent.append (spent : Spent crypto limit maxBytes earlier)
    (later : List DeltaBatchEntry) : Spent crypto limit maxBytes (earlier ++ later) := by
  simp only [Spent, length_append, map_append, sum_append] at spent ⊢
  omega

/-- One author's sequences: the run goes on by one logged delta at a time until
the sequences or the budget are spent or a delta is not published. -/
theorem serveSeqs_run {author : AuthorId} {since count : Nat} {next : Serving}
    (other : withheldOwnDevice store device ≠ some author.device)
    (ran : serveSeqs crypto store author limit maxBytes (List.range' (since + 1) count)
      (answering crypto earlier tail) = .ok (.ok next)) :
    ∃ run : AuthorRun, run.author = author ∧
      run.Serves crypto store device limit maxBytes since (since + count) earlier ∧
      next = answering crypto (earlier ++ run.entries) (tail ++ unpublishedAuthors [run]) := by
  -- A run of no entries that ends here, for each of the reasons but `withheld`.
  have stop (end_ : RunEnd) (ends : (⟨author, [], end_⟩ : AuthorRun).Ends crypto store device
      limit maxBytes since (since + count) earlier) :
      (⟨author, [], end_⟩ : AuthorRun).Serves crypto store device limit maxBytes since
        (since + count) earlier :=
    ⟨.nil, Nat.zero_le _, ends, fun own => absurd own other⟩
  induction count generalizing since earlier with
  | zero =>
    rw [List.range'_zero, serveSeqs] at ran
    cases ran
    refine ⟨⟨author, [], .frontier⟩, rfl, stop .frontier (Nat.le_refl _), ?_⟩
    simp [unpublishedAuthors]
  | succ count induction =>
    rw [List.range'_succ, serveSeqs] at ran
    split at ran
    case isTrue full =>
      cases ran
      refine ⟨⟨author, [], .full⟩, rfl, stop .full ?_, ?_⟩
      · simpa [AuthorRun.Ends] using answering_full.mp full
      · simp [unpublishedAuthors]
    rename_i notFull
    rw [answering_full] at notFull
    cases stored : store.bodies[(⟨author, since + 1⟩ : Dot)]? with
    | none => simp [stored] at ran
    | some body =>
      simp only [stored] at ran
      cases published : store.published[body.delta.deltaHash crypto]? with
      | none =>
        simp only [published] at ran
        cases ran
        refine ⟨⟨author, [], .unpublished⟩, rfl, stop .unpublished ?_, ?_⟩
        · exact ⟨by simpa using notFull, by simp, body, stored, published⟩
        · simp [unpublishedAuthors, answering]
      | some evidence =>
        simp only [published] at ran
        cases kept : store.checkpoints[evidence.checkpointHash]? with
        | none => simp [kept] at ran
        | some envelope =>
          cases carried : carriedVersions crypto store body.delta with
          | error failure => simp [kept, carried] at ran
          | ok versions =>
            simp only [kept, carried, answering_push] at ran
            have entry : entryAt crypto store ⟨author, since + 1⟩ = some
                ⟨⟨body.delta, evidence.checkpointHash, envelope, evidence.proof⟩, versions⟩ := by
              simp [entryAt, entryFor, stored, published, kept, carried, Except.toOption]
            rcases induction ran fun end_ ends =>
                ⟨.nil, Nat.zero_le _, ends, fun own => absurd own other⟩ with
              ⟨run, rfl, serves, rfl⟩
            refine ⟨⟨run.author, _ :: run.entries, run.end_⟩, rfl,
              ⟨.cons entry serves.logged, ?_, ?_, fun own => absurd own other⟩, ?_⟩
            · have within := serves.within
              simp only [length_cons]
              omega
            · have ends := serves.ends
              have shift (length : Nat) : since + 1 + length = since + (length + 1) := by omega
              simp only [AuthorRun.Ends, length_cons, append_assoc,
                singleton_append, shift] at ends ⊢
              exact ends
            · simp [unpublishedAuthors, filter_cons, apply_ite (List.map AuthorRun.author)]

variable (crypto store device limit maxBytes) in
/-- The runs of an answer that holds `earlier` already: one for each author, each
after the entries of those before it. -/
inductive Answers (since : List FrontierEntry) :
    List DeltaBatchEntry → List (AuthorId × NativeAuthorFrontierEntry) → List AuthorRun → Prop
  | nil (earlier : List DeltaBatchEntry) : Answers since earlier [] []
  | cons {earlier : List DeltaBatchEntry} {run : AuthorRun} {position : NativeAuthorFrontierEntry}
      {authors : List (AuthorId × NativeAuthorFrontierEntry)} {runs : List AuthorRun}
      (serves : run.Serves crypto store device limit maxBytes (sincePosition since run.author)
        position.seq earlier)
      (others : Answers since (earlier ++ run.entries) authors runs) :
      Answers since earlier ((run.author, position) :: authors) (run :: runs)

variable {since : List FrontierEntry} {authors : List (AuthorId × NativeAuthorFrontierEntry)}
  {runs : List AuthorRun}

theorem unpublishedAuthors_cons (run : AuthorRun) (runs : List AuthorRun) :
    unpublishedAuthors (run :: runs) = unpublishedAuthors [run] ++ unpublishedAuthors runs := by
  simp [unpublishedAuthors, ← map_append, ← filter_append]

theorem Answers.named (answers : Answers crypto store device limit maxBytes since earlier
    authors runs) : runs.map AuthorRun.author = authors.map Prod.fst := by
  induction answers with
  | nil => rfl
  | cons _ _ induction => rw [map_cons, map_cons, induction]

/-- A budget that the whole answer leaves unspent cut no run. -/
theorem Answers.unspent (answers : Answers crypto store device limit maxBytes since earlier
    authors runs)
    (unspent : ¬Spent crypto limit maxBytes (earlier ++ runs.flatMap AuthorRun.entries)) :
    ∀ run ∈ runs, run.end_ ≠ .full := by
  induction answers with
  | nil => simp
  | cons serves _ induction =>
    rename_i earlier run _ _ runs _
    rw [flatMap_cons, ← append_assoc] at unspent
    rw [forall_mem_cons]
    refine ⟨?_, induction unspent⟩
    intro full
    have ends := serves.ends
    rw [AuthorRun.Ends, full] at ends
    exact unspent (ends.append _)

/-- The authors in their order, each after the entries served before it. -/
theorem serveAuthors_runs {next : Serving}
    (ran : serveAuthors crypto store device since limit maxBytes authors
      (answering crypto earlier tail) = .ok (.ok next)) :
    ∃ runs, Answers crypto store device limit maxBytes since earlier authors runs ∧
      next = answering crypto (earlier ++ runs.flatMap AuthorRun.entries)
        (tail ++ unpublishedAuthors runs) := by
  induction authors generalizing earlier tail with
  | nil =>
    rw [serveAuthors] at ran
    cases ran
    exact ⟨[], .nil _, by simp [unpublishedAuthors]⟩
  | cons first rest induction =>
    rcases first with ⟨author, position⟩
    -- A run of this author without entries, which lists nothing unpublished.
    have idle (end_ : RunEnd) (listed : end_ ≠ .unpublished)
        (ends : (⟨author, [], end_⟩ : AuthorRun).Ends crypto store device limit maxBytes
          (sincePosition since author) position.seq earlier)
        (others : serveAuthors crypto store device since limit maxBytes rest
          (answering crypto earlier tail) = .ok (.ok next)) :
        ∃ runs, Answers crypto store device limit maxBytes since earlier
            ((author, position) :: rest) runs ∧
          next = answering crypto (earlier ++ runs.flatMap AuthorRun.entries)
            (tail ++ unpublishedAuthors runs) := by
      rcases induction others with ⟨runs, answers, rfl⟩
      refine ⟨⟨author, [], end_⟩ :: runs, .cons ⟨.nil, Nat.zero_le _, ends, ?_⟩ ?_, ?_⟩
      · intro _
        exact ⟨rfl, listed⟩
      · rwa [append_nil]
      · simp [unpublishedAuthors, listed]
    rw [serveAuthors] at ran
    split at ran
    case isTrue full =>
      -- The loop breaks: no author from here on has an entry.
      have spent := answering_full.mp full
      refine idle .full (by decide) ?_ ?_
      · simpa [AuthorRun.Ends] using spent
      · cases rest with
        | nil => exact ran
        | cons second others => rwa [serveAuthors, if_pos full]
    split at ran
    case isTrue own => exact idle .withheld (by decide) own ran
    rename_i other
    dsimp only at ran
    split at ran
    · cases ran
    · cases ran
    · rename_i served
      rcases serveSeqs_run other served with ⟨run, rfl, serves, rfl⟩
      rcases induction ran with ⟨runs, answers, rfl⟩
      refine ⟨run :: runs, .cons ⟨serves.logged, ?_, ?_, serves.withheld⟩ answers, ?_⟩
      · have within := serves.within
        omega
      · have ends := serves.ends
        simp only [AuthorRun.Ends] at ends ⊢
        cases same : run.end_ with
        | withheld => simpa only [same] using ends
        | frontier =>
          simp only [same] at ends ⊢
          omega
        | unpublished =>
          simp only [same] at ends ⊢
          exact ⟨ends.1, by omega, ends.2.2⟩
        | full => simpa only [same] using ends
      · rw [unpublishedAuthors_cons run runs, flatMap_cons, append_assoc, append_assoc]

/-- Every answer is gap free and holds published deltas only. -/
theorem deltasToServeWithin_gap_free {served : Served}
    (ran : deltasToServeWithin crypto store device since limit maxBytes = .ok (.ok served)) :
    ∃ runs, Answers crypto store device limit maxBytes since [] store.frontier.toList runs ∧
      served.entries = runs.flatMap AuthorRun.entries ∧
      served.unpublishedTail = unpublishedAuthors runs ∧
      (runs.map AuthorRun.author).Pairwise (fun first second => compare first second = .lt) ∧
      (¬Spent crypto limit maxBytes served.entries → ∀ run ∈ runs, run.end_ ≠ .full) := by
  rw [deltasToServeWithin] at ran
  split at ran
  · cases ran
  · cases ran
  · rename_i next answered
    cases ran
    change serveAuthors _ _ _ _ _ _ _ (answering crypto [] []) = _ at answered
    rcases serveAuthors_runs answered with ⟨runs, answers, rfl⟩
    refine ⟨runs, answers, rfl, rfl, ?_, answers.unspent⟩
    rw [answers.named, ExtTreeMap.map_fst_toList_eq_keys]
    exact ExtTreeMap.ordered_keys

end Runs

/-- A store that logged one delta which is not published. -/
def sampleUnpublished : Store :=
  { Store.empty with
    frontier := (∅ : ExtTreeMap AuthorId NativeAuthorFrontierEntry).insert
      sampleFirst.author ⟨1, sampleFirst.deltaHash .sample⟩
    bodies := (∅ : ExtTreeMap Dot BodyRow).insert ⟨sampleFirst.author, 1⟩
      ⟨sampleFirst.deltaHash .sample, sampleFirst⟩ }

theorem sampleUnpublished_serves :
    deltasToServeWithin .sample sampleUnpublished "phone" [] 8 64 =
      .ok (.ok ⟨[], [sampleFirst.author]⟩) := by
  have rows : sampleUnpublished.frontier.toList = [(sampleFirst.author,
      ⟨1, sampleFirst.deltaHash .sample⟩)] := rfl
  rw [deltasToServeWithin, rows]
  rfl

theorem deltasToServeWithin_gap_free_unpublished :
    ∃ runs, Answers .sample sampleUnpublished "phone" 8 64 [] []
        sampleUnpublished.frontier.toList runs ∧ [] = runs.flatMap AuthorRun.entries ∧
      [sampleFirst.author] = unpublishedAuthors runs := by
  rcases deltasToServeWithin_gap_free sampleUnpublished_serves with
    ⟨runs, answers, entries, listed, _⟩
  exact ⟨runs, answers, entries, listed⟩

end Yadorilink

import Yadorilink.Foundation.Lists
import Yadorilink.Reconcile.NativePass

/-! A pass with runs settles as one that takes its items one at a time. The entries of a run are
kept apart, so each ends as if it ran alone; and nothing an entry of a run can end as is looked at
by a gate, or by the claim of an entry that joins the run. -/

namespace Yadorilink.Reconcile

open Std Independence RankedWindow ExtTreeMap

variable {σ ε : Type} {run : List RunEntry}

/-! ## Entries that are kept apart -/

/-- Two plain entries whose names do not clash. -/
structure Apart (fold : SyncPath → SyncPath) (first second : RunEntry) : Prop where
  firstPlain : isPlainEntry first.item.2 = true
  secondPlain : isPlainEntry second.item.2 = true
  names : clash fold first.item.1 second.item.1 = false

/-- Settling entries that are kept apart gives the same outcomes and the same world in both
orders. -/
def Environment.Settles (env : Environment σ ε) : Prop :=
  Commutes (fun world (entry : RunEntry) => env.settle world entry.item entry.claim)
    (Apart env.canonicalFold)

theorem clash_comm (fold : SyncPath → SyncPath) (first second : SyncPath) :
    clash fold first second = clash fold second first := by
  rw [clash, clash, Bool.beq_comm, Bool.eq_iff_iff]
  simp only [Bool.or_eq_true]
  tauto

theorem Apart.symm {fold : SyncPath → SyncPath} {first second : RunEntry}
    (apart : Apart fold first second) : Apart fold second first :=
  ⟨apart.secondPlain, apart.firstPlain, (clash_comm fold ..).symm.trans apart.names⟩

/-- A run as it may be settled: plain entries, each kept apart from the others. -/
structure RunApart (fold : SyncPath → SyncPath) (run : List RunEntry) : Prop where
  plain : ∀ entry ∈ run, isPlainEntry entry.item.2 = true
  apart : run.Pairwise (Apart fold)

theorem RunApart.nil (fold : SyncPath → SyncPath) : RunApart fold [] :=
  ⟨fun _ member => absurd member List.not_mem_nil, List.Pairwise.nil⟩

theorem RunApart.push {fold : SyncPath → SyncPath} {entry : RunEntry}
    (run_apart : RunApart fold run) (plain : isPlainEntry entry.item.2 = true)
    (names : ∀ earlier ∈ run, clash fold earlier.item.1 entry.item.1 = false) :
    RunApart fold (run ++ [entry]) := by
  constructor
  · exact forall_mem_concat run_apart.plain plain
  · rw [List.pairwise_append]
    refine ⟨run_apart.apart, List.pairwise_singleton .., fun earlier member other here => ?_⟩
    rw [List.mem_singleton.mp here]
    exact ⟨run_apart.plain earlier member, plain, names earlier member⟩

/-! ## One run -/

namespace Pass

variable {env : Environment σ ε} {schedule : List (RunEntry × Nat) → List (RunEntry × Nat)}
  {item : Item}

def settleThen (env : Environment σ ε) (state : σ × Ledger ε) (entry : RunEntry) : σ × Ledger ε :=
  let done := env.settle state.1 entry.item entry.claim
  (done.2, state.2.record entry.item (env.directoryOnDisk done.2 entry.item.1) done.1)

theorem record_plain (plain : isPlainEntry item.2 = true) (ledger : Ledger ε)
    (first second : Bool) (outcome : MaterializeResult ε) :
    ledger.record item first outcome = ledger.record item second outcome := by
  have noDirectory : item.2.isDirectory = false := by
    cases item with
    | mk path work =>
      cases work with
      | absent => rfl
      | node node =>
        cases node with
        | entry head kind => rfl
        | explicitDirectory head => cases plain
        | structuralDirectory => cases plain
  cases outcome with
  | settled evidence => rfl
  | retryRequired => simp only [Ledger.record, noDirectory, Bool.false_and]
  | failed => rfl

theorem foldl_settleThen (world last : σ) (ledger : Ledger ε) {entries : List (RunEntry × Nat)}
    (plain : ∀ entry ∈ entries, isPlainEntry entry.1.item.2 = true) :
    (entries.map Prod.fst).foldl (settleThen env) (world, ledger) =
      ((execute (settleEntry env) world entries).2,
        (execute (settleEntry env) world entries).1.foldl (recordEntry env last) ledger) := by
  induction entries generalizing world ledger with
  | nil => rfl
  | cons entry rest induction =>
    have here := plain entry (.head _)
    have later := fun other member => plain other (.tail entry member)
    rw [List.map_cons, List.foldl_cons, execute]
    dsimp only
    rw [List.foldl_cons, settleThen, induction _ _ later, recordEntry]
    rw [record_plain here ledger _ (env.directoryOnDisk last entry.1.item.1)]
    rfl

theorem pairwise_zipIdx (run_apart : RunApart env.canonicalFold run) :
    run.zipIdx.Pairwise fun first second => Apart env.canonicalFold first.1 second.1 := by
  have names : run.zipIdx.map Prod.fst = run := List.zipIdx_map_fst 0 run
  rw [← List.pairwise_map (R := Apart env.canonicalFold), names]
  exact run_apart.apart

theorem ranked_outcomes (settles : env.Settles) (run_apart : RunApart env.canonicalFold run)
    {order : List (RunEntry × Nat)} (permuted : run.zipIdx.Perm order) (world : σ) :
    ranked (fun done => done.1.2) (execute (settleEntry env) world order).1 =
      (execute (settleEntry env) world run.zipIdx).1 := by
  have commutes : Commutes (settleEntry env) fun first second =>
      Apart env.canonicalFold first.1 second.1 :=
    fun first second world apart => settles first.1 second.1 world apart
  have apart := pairwise_zipIdx run_apart
  have orderApart := (permuted.pairwise_iff fun both => Apart.symm both).mp apart
  rw [execute_results commutes apart, execute_results commutes orderApart]
  symm
  apply eq_ranked
  · intro first inFirst second inSecond same
    rcases List.mem_map.mp inFirst with ⟨entry, member, rfl⟩
    rcases List.mem_map.mp inSecond with ⟨other, otherMember, rfl⟩
    have equal : entry = other := by
      have here := List.mk_mem_zipIdx_iff_getElem?.mp (permuted.mem_iff.mpr member)
      have there := List.mk_mem_zipIdx_iff_getElem?.mp (permuted.mem_iff.mpr otherMember)
      change entry.2 = other.2 at same
      rw [same] at here
      exact Prod.ext (Option.some.inj (here.symm.trans there)) same
    rw [equal]
  · exact permuted.map _
  · rw [List.pairwise_map]
    have indices : (run.zipIdx.map Prod.snd).Pairwise (· < ·) := by
      rw [List.zipIdx_map_snd]
      exact List.pairwise_lt_range'
    exact (List.pairwise_map.mp indices).imp Nat.le_of_lt

/-! ## What the entries of a run leave alone -/

theorem unshaped_record (plain : isPlainEntry item.2 = true) (ledger : Ledger ε) (onDisk : Bool)
    (outcome : MaterializeResult ε) :
    (ledger.record item onDisk outcome).unshaped = ledger.unshaped := by
  rw [record_plain plain ledger onDisk true]
  cases outcome with
  | settled evidence => rfl
  | retryRequired => simp [Ledger.record]
  | failed => rfl

theorem mem_retry_record {ledger : Ledger ε} {onDisk : Bool} {outcome : MaterializeResult ε}
    {path : SyncPath} (member : path ∈ (ledger.record item onDisk outcome).retry) :
    path ∈ ledger.retry ∨ path = item.1 := by
  cases outcome with
  | settled evidence => exact .inl member
  | retryRequired =>
    rcases ExtTreeSet.mem_insert.mp member with same | before
    · exact .inr (LawfulEqOrd.eq_of_compare same).symm
    · exact .inl before
  | failed =>
    rcases ExtTreeSet.mem_insert.mp member with same | before
    · exact .inr (LawfulEqOrd.eq_of_compare same).symm
    · exact .inl before

theorem mem_record_of_mem_retry {ledger : Ledger ε} {onDisk : Bool}
    {outcome : MaterializeResult ε} {path : SyncPath} (member : path ∈ ledger.retry) :
    path ∈ (ledger.record item onDisk outcome).retry := by
  cases outcome with
  | settled evidence => exact member
  | retryRequired => exact ExtTreeSet.mem_insert.mpr (.inr member)
  | failed => exact ExtTreeSet.mem_insert.mpr (.inr member)

theorem unshaped_foldl {run : List RunEntry}
    (plain : ∀ entry ∈ run, isPlainEntry entry.item.2 = true) (state : σ × Ledger ε) :
    (run.foldl (settleThen env) state).2.unshaped = state.2.unshaped := by
  induction run generalizing state with
  | nil => rfl
  | cons entry rest induction =>
    rw [List.foldl_cons, induction fun other member =>
      plain other (.tail entry member)]
    exact unshaped_record (plain entry (.head _)) ..

theorem mem_retry_foldl {state : σ × Ledger ε} {path : SyncPath}
    (member : path ∈ (run.foldl (settleThen env) state).2.retry) :
    path ∈ state.2.retry ∨ ∃ entry ∈ run, entry.item.1 = path := by
  induction run generalizing state with
  | nil => exact .inl member
  | cons entry rest induction =>
    rcases induction member with before | ⟨other, inRest, same⟩
    · rcases mem_retry_record before with earlier | here
      · exact .inl earlier
      · exact .inr ⟨entry, .head _, here.symm⟩
    · exact .inr ⟨other, .tail entry inRest, same⟩

theorem mem_foldl_of_mem_retry {state : σ × Ledger ε} {path : SyncPath}
    (member : path ∈ state.2.retry) : path ∈ (run.foldl (settleThen env) state).2.retry := by
  induction run generalizing state with
  | nil => exact member
  | cons entry rest induction => exact induction (mem_record_of_mem_retry member)

/-- The claim of an entry that clashes with none of a run is the same before and after it. -/
theorem claimFor_foldl {run : List RunEntry} {state : σ × Ledger ε} {path : SyncPath}
    (names : ∀ entry ∈ run, clash env.canonicalFold entry.item.1 path = false) :
    env.claimFor (run.foldl (settleThen env) state).2.retry path =
      env.claimFor state.2.retry path := by
  have same : ((run.foldl (settleThen env) state).2.retry.toList.any fun other =>
      isConflictCopyOf other path) =
      state.2.retry.toList.any fun other => isConflictCopyOf other path := by
    rw [Bool.eq_iff_iff, List.any_eq_true, List.any_eq_true]
    constructor
    · rintro ⟨other, listed, copy⟩
      rcases mem_retry_foldl (ExtTreeSet.mem_toList.mp listed) with before | ⟨entry, inRun, rfl⟩
      · exact ⟨other, ExtTreeSet.mem_toList.mpr before, copy⟩
      · have free := names entry inRun
        simp [clash, copy] at free
    · rintro ⟨other, listed, copy⟩
      exact ⟨other, ExtTreeSet.mem_toList.mpr
        (mem_foldl_of_mem_retry (ExtTreeSet.mem_toList.mp listed)), copy⟩
  rw [Environment.claimFor, Environment.claimFor, same]

/-! ## The pass beside the serial one -/

/-- The serial pass is where this one will be once its run is settled. -/
structure Beside (env : Environment σ ε) (pass serial : Pass σ ε) : Prop where
  run : RunApart env.canonicalFold pass.run
  state : pass.run.foldl (settleThen env) (pass.world, pass.ledger) = (serial.world, serial.ledger)
  attempts : pass.attempts.map Attempt.entry ++ pass.run = serial.attempts.map Attempt.entry
  runs : ∀ run ∈ pass.runs, RunApart env.canonicalFold run

variable {pass serial : Pass σ ε}

theorem run_settlePlainRun (pass : Pass σ ε) : (pass.settlePlainRun env schedule).run = [] := by
  rw [settlePlainRun]
  split
  · rename_i empty
    exact List.isEmpty_iff.mp empty
  · rfl

theorem Beside.settlePlainRun (settles : env.Settles)
    (permutes : ∀ entries : List (RunEntry × Nat), entries.Perm (schedule entries)) (beside : Beside env pass serial) :
    Beside env (pass.settlePlainRun env schedule) serial := by
  rw [Pass.settlePlainRun]
  split
  · exact beside
  · have commutes : Commutes (settleEntry env) fun first second =>
        Apart env.canonicalFold first.1 second.1 :=
      fun first second world apart => settles first.1 second.1 world apart
    have names : pass.run.zipIdx.map Prod.fst = pass.run := List.zipIdx_map_fst 0 pass.run
    have plain : ∀ entry ∈ pass.run.zipIdx, isPlainEntry entry.1.item.2 = true :=
      fun entry member => beside.run.plain entry.1 (names ▸ List.mem_map_of_mem member)
    have world := execute_world_perm commutes (fun _ _ => Apart.symm) (pairwise_zipIdx beside.run)
      (permutes pass.run.zipIdx) pass.world
    have outcomes := ranked_outcomes settles beside.run (permutes pass.run.zipIdx) pass.world
    refine ⟨RunApart.nil _, ?_, ?_, ?_⟩
    · dsimp only
      rw [List.foldl_nil, world, outcomes, ← beside.state]
      have turns := @foldl_settleThen _ _ env pass.world
        (execute (settleEntry env) pass.world pass.run.zipIdx).2 pass.ledger _ plain
      rw [names] at turns
      exact turns.symm
    · dsimp only
      rw [List.append_nil, List.map_append, List.map_map, ← beside.attempts]
      exact congrArg _ (List.map_id _)
    · intro run member
      rcases List.mem_append.mp member with before | here
      · exact beside.runs run before
      · rw [List.mem_singleton.mp here]
        exact beside.run

theorem Beside.unshaped (beside : Beside env pass serial) :
    serial.ledger.unshaped = pass.ledger.unshaped := by
  have same := @unshaped_foldl _ _ env _ beside.run.plain (pass.world, pass.ledger)
  rw [beside.state] at same
  exact same

theorem conflictsWithRun_false {path : SyncPath}
    (free : conflictsWithRun env.canonicalFold run path = false) :
    ∀ entry ∈ run, clash env.canonicalFold entry.item.1 path = false := by
  intro entry member
  rw [← Bool.not_eq_true]
  exact List.any_eq_false.mp free entry member

/-- An entry that joins a run it does not clash with gets the claim the serial pass gives it. -/
theorem Beside.push (beside : Beside env pass serial) (plain : isPlainEntry item.2 = true)
    (names : ∀ entry ∈ pass.run, clash env.canonicalFold entry.item.1 item.1 = false) :
    Beside env { pass with run := pass.run ++ [⟨item, env.claimFor pass.ledger.retry item.1⟩] }
      (serial.settleAlone env item) := by
  have claim : claimOf env serial.ledger item = env.claimFor pass.ledger.retry item.1 := by
    have same := @claimFor_foldl _ _ env _ (pass.world, pass.ledger) _ names
    rw [beside.state] at same
    rw [← same, claimOf]
    cases item with
    | mk path work =>
      cases work with
      | absent => cases plain
      | node node => rfl
  constructor
  · exact beside.run.push plain names
  · dsimp only
    rw [List.foldl_append, beside.state, Pass.settleAlone, claim]
    rfl
  · rw [Pass.settleAlone, claim]
    dsimp only
    rw [List.map_append, ← beside.attempts, List.append_assoc]
    rfl
  · exact beside.runs

theorem Beside.gather (settles : env.Settles)
    (permutes : ∀ entries : List (RunEntry × Nat), entries.Perm (schedule entries))
    (beside : Beside env pass serial) (plain : isPlainEntry item.2 = true) :
    Beside env (pass.gather env schedule item) (serial.settleAlone env item) := by
  rw [Pass.gather]
  cases conflict : conflictsWithRun env.canonicalFold pass.run item.1 with
  | true =>
    have settled := beside.settlePlainRun settles permutes
    apply settled.push plain
    intro entry member
    rw [run_settlePlainRun] at member
    cases member
  | false => exact beside.push plain (conflictsWithRun_false conflict)

theorem Beside.behindGate (beside : Beside env pass serial) (idle : pass.run = []) (item : Item)
    (gate : Gate) : Beside env (pass.behindGate env item gate) (serial.behindGate env item gate) := by
  have state := beside.state
  have attempts := beside.attempts
  rw [idle, List.foldl_nil, Prod.mk.injEq] at state
  rw [idle, List.append_nil] at attempts
  cases gate with
  | ignored =>
    refine ⟨idle ▸ RunApart.nil _, ?_, ?_, beside.runs⟩
    · rw [Pass.behindGate, Pass.behindGate, Pass.excluded, Pass.excluded, idle, state.1, state.2]
      rfl
    · rw [Pass.behindGate, Pass.behindGate, Pass.excluded, Pass.excluded, idle]
      exact (List.append_nil _).trans attempts
  | declined =>
    refine ⟨idle ▸ RunApart.nil _, ?_, ?_, beside.runs⟩
    · rw [Pass.behindGate, Pass.behindGate, Pass.declined, Pass.declined, idle, state.1, state.2]
      rfl
    · rw [Pass.behindGate, Pass.behindGate, Pass.declined, Pass.declined, idle]
      exact (List.append_nil _).trans attempts
  | open_ =>
    refine ⟨idle ▸ RunApart.nil _, ?_, ?_, beside.runs⟩
    · rw [Pass.behindGate, Pass.behindGate, Pass.settleAlone, Pass.settleAlone, idle, state.1,
        state.2]
      rfl
    · rw [Pass.behindGate, Pass.behindGate, Pass.settleAlone, Pass.settleAlone, idle, state.1,
        state.2]
      dsimp only
      rw [List.append_nil, List.map_append, List.map_append, attempts]

theorem Beside.step (settles : env.Settles)
    (permutes : ∀ entries : List (RunEntry × Nat), entries.Perm (schedule entries))
    (beside : Beside env pass serial) (item : Item) :
    Beside env (pass.step env schedule item) (serial.serialStep env item) := by
  rw [Pass.step, Pass.serialStep, beside.unshaped]
  split
  · rename_i both
    rw [Bool.and_eq_true] at both
    cases gate : env.passGate pass.ledger.unshaped item.1 with
    | open_ => exact beside.gather settles permutes both.2
    | ignored =>
      rw [gate] at both
      cases both.1
    | declined =>
      rw [gate] at both
      cases both.1
  · exact (beside.settlePlainRun settles permutes).behindGate (run_settlePlainRun pass) item _

theorem Beside.settleWork (settles : env.Settles)
    (permutes : ∀ entries : List (RunEntry × Nat), entries.Perm (schedule entries))
    (beside : Beside env pass serial) (order : List Item) :
    Beside env (pass.settleWork env schedule order) (serial.settleSerially env order) := by
  rw [Pass.settleWork, Pass.settleSerially]
  apply Beside.settlePlainRun settles permutes
  induction order generalizing pass serial with
  | nil => exact beside
  | cons item rest induction => exact induction (beside.step settles permutes item)

theorem run_settleWork (pass : Pass σ ε) (order : List Item) :
    (pass.settleWork env schedule order).run = [] :=
  run_settlePlainRun _

theorem beside_start (env : Environment σ ε) (world : σ) (planned : PlannedWork) :
    Beside env (Pass.start world planned) (Pass.start world planned) :=
  ⟨RunApart.nil _, rfl, rfl, fun _ member => absurd member List.not_mem_nil⟩

end Pass

/-! ## Each path ends in one place -/

namespace Ledger

/-- The path is settled or to be tried again, and not both. -/
def Recorded (ledger : Ledger ε) (path : SyncPath) : Prop :=
  path ∈ ledger.settled ∧ path ∉ ledger.retry ∨ path ∉ ledger.settled ∧ path ∈ ledger.retry

def Untouched (ledger : Ledger ε) (path : SyncPath) : Prop :=
  path ∉ ledger.settled ∧ path ∉ ledger.retry

/-- A step at a path: it puts the path in one place, and leaves the others where they are. -/
structure Puts (path : SyncPath) (before after : Ledger ε) : Prop where
  recorded : before.Untouched path → after.Recorded path
  settled : ∀ other, other ≠ path → (other ∈ after.settled ↔ other ∈ before.settled)
  retry : ∀ other, other ≠ path → (other ∈ after.retry ↔ other ∈ before.retry)

variable {path : SyncPath} {ledger : Ledger ε} {other : SyncPath}

theorem mem_insert_retry_iff {paths : ExtTreeSet SyncPath} :
    other ∈ paths.insert path ↔ path = other ∨ other ∈ paths := by
  rw [ExtTreeSet.mem_insert, Std.compare_eq_iff_eq]

theorem mem_insert_settled_iff {evidence : ε} :
    other ∈ ledger.settled.insert path evidence ↔ path = other ∨ other ∈ ledger.settled := by
  rw [mem_insert, Std.compare_eq_iff_eq]

theorem puts_settled (ledger : Ledger ε) (path : SyncPath) (evidence : ε) :
    Puts path ledger { ledger with settled := ledger.settled.insert path evidence } where
  recorded := fun untouched => .inl ⟨mem_insert_settled_iff.mpr (.inl rfl), untouched.2⟩
  settled := fun _ apart => mem_insert_settled_iff.trans (or_iff_right apart.symm)
  retry := fun _ _ => Iff.rfl

theorem puts_retry (ledger : Ledger ε) (path : SyncPath) (unshaped : ExtTreeSet SyncPath) :
    Puts path ledger { ledger with retry := ledger.retry.insert path, unshaped := unshaped } where
  recorded := fun untouched => .inr ⟨untouched.1, mem_insert_retry_iff.mpr (.inl rfl)⟩
  settled := fun _ _ => Iff.rfl
  retry := fun _ apart => mem_insert_retry_iff.trans (or_iff_right apart.symm)

theorem puts_record (ledger : Ledger ε) (item : Item) (onDisk : Bool)
    (outcome : MaterializeResult ε) :
    Puts item.1 ledger (ledger.record item onDisk outcome) := by
  cases outcome with
  | settled evidence => exact puts_settled ledger item.1 evidence
  | retryRequired => exact puts_retry ledger item.1 _
  | failed => exact puts_retry ledger item.1 ledger.unshaped

end Ledger

theorem Pass.puts_serialStep (env : Environment σ ε) (pass : Pass σ ε) (item : Item) :
    Ledger.Puts item.1 pass.ledger (pass.serialStep env item).ledger := by
  rw [Pass.serialStep]
  cases env.passGate pass.ledger.unshaped item.1 with
  | ignored => exact Ledger.puts_settled pass.ledger item.1 env.ignoreExcluded
  | declined => exact Ledger.puts_retry pass.ledger item.1 pass.ledger.unshaped
  | open_ => exact Ledger.puts_record pass.ledger item _ _

/-- Over a whole serial pass, each path of the work is put in one place and no other one moves. -/
theorem Pass.recorded_settleSerially {env : Environment σ ε} {order : List Item}
    (distinct : (order.map Prod.fst).Nodup) {pass : Pass σ ε}
    (untouched : ∀ item ∈ order, pass.ledger.Untouched item.1) (path : SyncPath) :
    (path ∈ order.map Prod.fst → (pass.settleSerially env order).ledger.Recorded path) ∧
      (path ∉ order.map Prod.fst →
        ((pass.settleSerially env order).ledger.Recorded path ↔ pass.ledger.Recorded path)) := by
  induction order generalizing pass with
  | nil => exact ⟨fun member => absurd member List.not_mem_nil, fun _ => Iff.rfl⟩
  | cons item rest induction =>
    rw [List.map_cons, List.nodup_cons] at distinct
    have puts := Pass.puts_serialStep env pass item
    have later : ∀ other ∈ rest, (pass.serialStep env item).ledger.Untouched other.1 := by
      intro other member
      have apart : other.1 ≠ item.1 :=
        fun same => distinct.1 (same ▸ List.mem_map_of_mem member)
      rw [Ledger.Untouched, puts.settled _ apart, puts.retry _ apart]
      exact untouched other (.tail item member)
    have rest_spec := induction distinct.2 later
    change (path ∈ item.1 :: rest.map Prod.fst →
        ((pass.serialStep env item).settleSerially env rest).ledger.Recorded path) ∧
      (path ∉ item.1 :: rest.map Prod.fst →
        (((pass.serialStep env item).settleSerially env rest).ledger.Recorded path ↔
          pass.ledger.Recorded path))
    constructor
    · intro member
      rcases List.mem_cons.mp member with rfl | inRest
      · exact (rest_spec.2 distinct.1).mpr
          (puts.recorded (untouched item (.head _)))
      · exact rest_spec.1 inRest
    · intro outside
      rw [List.mem_cons, not_or] at outside
      rw [rest_spec.2 outside.2, Ledger.Recorded, Ledger.Recorded, puts.settled _ outside.1,
        puts.retry _ outside.1]

/-! ## What is planned -/

section Planned

variable {planner : Planner} {seeds : ExtTreeSet SyncPath}

/-- Seeds put aside are not work, and could not become it. -/
structure PlannedWork.Consistent (planner : Planner) (seeds : ExtTreeSet SyncPath)
    (planned : PlannedWork) : Prop where
  aside : ∀ path ∈ planned.retry, path ∉ planned.work ∧
    (planned.contested.contains path || (planner.planOf seeds (parentOf path)).isNone) = true

theorem PlannedWork.Consistent.addSeed {planned : PlannedWork}
    (consistent : planned.Consistent planner seeds) (seed : SyncPath) :
    (planner.addSeed seeds planned seed).Consistent planner seeds ∧
      (seed ∈ (planner.addSeed seeds planned seed).work ∨
        seed ∈ (planner.addSeed seeds planned seed).retry) ∧
      (∀ path, path ∈ planned.work ∨ path ∈ planned.retry →
        path ∈ (planner.addSeed seeds planned seed).work ∨
          path ∈ (planner.addSeed seeds planned seed).retry) := by
  rw [Planner.addSeed]
  split
  · rename_i present
    exact ⟨consistent, .inl (contains_iff_mem.mp present), fun _ => id⟩
  · rename_i missing
    rw [contains_iff_mem] at missing
    split
    · rename_i put
      refine ⟨⟨fun path member => ?_⟩, .inr (Ledger.mem_insert_retry_iff.mpr (.inl rfl)), ?_⟩
      · rcases Ledger.mem_insert_retry_iff.mp member with rfl | before
        · exact ⟨missing, put⟩
        · exact consistent.aside path before
      · rintro path (inWork | inRetry)
        · exact .inl inWork
        · exact .inr (Ledger.mem_insert_retry_iff.mpr (.inr inRetry))
    · rename_i free
      have inserted : ∀ path, path ∈ planned.work.insert seed .absent ↔
          seed = path ∨ path ∈ planned.work := by
        intro path
        rw [mem_insert, Std.compare_eq_iff_eq]
      refine ⟨⟨fun path member => ?_⟩, .inl ((inserted seed).mpr (.inl rfl)), ?_⟩
      · rcases consistent.aside path member with ⟨outside, why⟩
        refine ⟨fun inside => ?_, why⟩
        rcases (inserted path).mp inside with rfl | before
        · exact free why
        · exact outside before
      · rintro path (inWork | inRetry)
        · exact .inl ((inserted path).mpr (.inr inWork))
        · exact .inr inRetry

theorem plan_spec (planner : Planner) (seeds : ExtTreeSet SyncPath) :
    (planner.plan seeds).Consistent planner seeds ∧
      ∀ seed ∈ seeds, seed ∈ (planner.plan seeds).work ∨ seed ∈ (planner.plan seeds).retry := by
  have general : ∀ (listed : List SyncPath) (planned : PlannedWork),
      planned.Consistent planner seeds →
      (listed.foldl (planner.addSeed seeds) planned).Consistent planner seeds ∧
        ∀ path, path ∈ listed ∨ path ∈ planned.work ∨ path ∈ planned.retry →
          path ∈ (listed.foldl (planner.addSeed seeds) planned).work ∨
            path ∈ (listed.foldl (planner.addSeed seeds) planned).retry := by
    intro listed
    induction listed with
    | nil =>
      intro planned consistent
      refine ⟨consistent, fun path held => ?_⟩
      rcases held with member | held
      · cases member
      · exact held
    | cons seed rest induction =>
      intro planned consistent
      rcases consistent.addSeed seed with ⟨next, added, kept⟩
      rcases induction _ next with ⟨final, all⟩
      refine ⟨final, fun path held => ?_⟩
      rcases held with member | held
      · rcases List.mem_cons.mp member with rfl | inRest
        · exact all path (.inr added)
        · exact all path (.inl inRest)
      · exact all path (.inr (kept path held))
  have start : PlannedWork.Consistent planner seeds
      ⟨planner.plannedNodes seeds, ∅, planner.contested seeds⟩ :=
    ⟨fun path member => absurd member ExtTreeSet.not_mem_empty⟩
  rcases general seeds.toList _ start with ⟨consistent, all⟩
  exact ⟨consistent, fun seed member => all seed (.inl (ExtTreeSet.mem_toList.mpr member))⟩

theorem workOrder_perm (work : ExtTreeMap SyncPath Work) :
    ((workOrder work).map Prod.fst).Perm work.keys := by
  rw [← map_fst_toList_eq_keys]
  exact (ranked_perm_self work.toList).map Prod.fst

theorem mem_workOrder_iff {work : ExtTreeMap SyncPath Work} {path : SyncPath} :
    path ∈ (workOrder work).map Prod.fst ↔ path ∈ work := by
  rw [(workOrder_perm work).mem_iff, mem_keys]

theorem nodup_workOrder (work : ExtTreeMap SyncPath Work) : ((workOrder work).map Prod.fst).Nodup :=
  (workOrder_perm work).nodup_iff.mpr nodup_keys

theorem foldl_recordMissing {paths : List SyncPath} {ledger : Ledger ε}
    (recorded : ∀ path ∈ paths, ledger.Recorded path) :
    paths.foldl recordMissing ledger = ledger := by
  induction paths with
  | nil => rfl
  | cons path rest induction =>
    have here : recordMissing ledger path = ledger := by
      rw [recordMissing, if_pos]
      rw [Bool.or_eq_true, contains_iff_mem, ExtTreeSet.contains_iff_mem]
      rcases recorded path (.head _) with settled | retried
      · exact .inl settled.1
      · exact .inr retried.2
    rw [List.foldl_cons, here]
    exact induction fun other member => recorded other (.tail path member)

theorem recorded_serially (env : Environment σ ε) (planner : Planner) (world : σ)
    (seeds : ExtTreeSet SyncPath) (path : SyncPath)
    (touched : path ∈ (planner.plan seeds).work ∨ path ∈ seeds) :
    ((Pass.start world (planner.plan seeds)).settleSerially env
      (workOrder (planner.plan seeds).work)).ledger.Recorded path := by
  rcases plan_spec planner seeds with ⟨consistent, covered⟩
  have untouched : ∀ item ∈ workOrder (planner.plan seeds).work,
      (Pass.start world (planner.plan seeds) : Pass σ ε).ledger.Untouched item.1 := by
    intro item member
    have inWork := mem_workOrder_iff.mp (List.mem_map_of_mem member)
    exact ⟨not_mem_empty, fun aside => (consistent.aside item.1 aside).1 inWork⟩
  have spec := @Pass.recorded_settleSerially _ _ env _ (nodup_workOrder _) _ untouched path
  rcases touched with inWork | isSeed
  · exact spec.1 (mem_workOrder_iff.mpr inWork)
  · rcases covered path isSeed with inWork | aside
    · exact spec.1 (mem_workOrder_iff.mpr inWork)
    · apply (spec.2 fun member =>
        (consistent.aside path aside).1 (mem_workOrder_iff.mp member)).mpr
      exact .inr ⟨not_mem_empty, aside⟩

end Planned

/-! ## The pass -/

/-- However the entries of its runs interleave, with any number of them in flight, the pass returns
what the serial one does and gives each item the same claim; entries in flight together are kept
apart; and every seed and path of the work is in one place at the end. -/
theorem pass_equals_serial_pass (env : Environment σ ε) (settles : env.Settles) (limit : Nat)
    (schedule : List (RunEntry × Nat) → List (RunEntry × Nat))
    (unordered : ∀ entries, Unordered (max limit 1) entries (schedule entries))
    (planner : Planner) (world : σ) (seeds : ExtTreeSet SyncPath) :
    (reconcileGroupPathsNative env schedule planner world seeds).1 =
        (reconcileSerially env planner world seeds).1 ∧
      (reconcileGroupPathsNative env schedule planner world seeds).2.attempts.map Attempt.entry =
        (reconcileSerially env planner world seeds).2.attempts.map Attempt.entry ∧
      (∀ run ∈ (reconcileGroupPathsNative env schedule planner world seeds).2.runs,
        run.Pairwise (Apart env.canonicalFold)) ∧
      ∀ path, path ∈ seeds ∨ planner.live = true ∧ path ∈ (planner.plan seeds).work →
        (path ∈ (reconcileGroupPathsNative env schedule planner world seeds).1.settled ∧
            path ∉ (reconcileGroupPathsNative env schedule planner world seeds).1.retry ∨
          path ∉ (reconcileGroupPathsNative env schedule planner world seeds).1.settled ∧
            path ∈ (reconcileGroupPathsNative env schedule planner world seeds).1.retry) := by
  rw [reconcileGroupPathsNative, reconcileSerially]
  split
  · have permutes := fun entries => (unordered entries).perm
    have beside := (Pass.beside_start env world (planner.plan seeds)).settleWork settles permutes
      (workOrder (planner.plan seeds).work)
    have state := beside.state
    have attempts := beside.attempts
    rw [Pass.run_settleWork, List.foldl_nil, Prod.mk.injEq] at state
    rw [Pass.run_settleWork, List.append_nil] at attempts
    dsimp only
    rw [state.2]
    have recorded := recorded_serially env planner world seeds
    have complete : attemptOf (planner.plan seeds) seeds
        ((Pass.start world (planner.plan seeds)).settleSerially env
          (workOrder (planner.plan seeds).work)).ledger = _ :=
      congrArg (fun ledger : Ledger ε => ProjectionAttempt.mk ledger.settled ledger.retry)
        (foldl_recordMissing fun path member => recorded path
          ((List.mem_append.mp member).imp ExtTreeMap.mem_keys.mp ExtTreeSet.mem_toList.mp))
    refine ⟨rfl, attempts, fun run member => (beside.runs run member).apart, ?_⟩
    intro path touched
    rw [complete]
    exact recorded path (touched.symm.imp And.right id)
  · rename_i notLive
    refine ⟨rfl, rfl, fun run member => absurd member List.not_mem_nil, ?_⟩
    rintro path (isSeed | ⟨live, -⟩)
    · exact .inr ⟨ExtTreeMap.not_mem_empty, isSeed⟩
    · exact absurd live notLive

/-! ## Two files in flight -/

def plainFile : NativePlannedNode :=
  .entry ⟨"a.txt", ⟨⟨⟨"d", 1⟩, 1⟩, ⟨⟨1⟩, ⟨1⟩⟩⟩⟩ .file

def filesEverywhere : Planner where
  live := true
  nativePlanForNames := fun _ names =>
    some ⟨names.toList.foldl (fun nodes name => nodes.insert name plainFile) ∅, ∅⟩

def countingEnvironment : Environment Nat Unit where
  ignored := fun _ => false
  paused := []
  frozen := false
  claims := fun _ => some ⟨1, 1⟩
  canonicalFold := id
  settle := fun world _ _ => (.settled (), world + 1)
  directoryOnDisk := fun _ _ => true
  ignoreExcluded := ()

def firstEndsLast : List (RunEntry × Nat) → List (RunEntry × Nat)
  | [] => []
  | first :: rest => rest ++ [first]

theorem unordered_firstEndsLast (entries : List (RunEntry × Nat)) :
    Unordered 2 entries (firstEndsLast entries) := by
  cases entries with
  | nil => exact .done
  | cons first rest =>
    induction rest with
    | nil => exact .ends [first] 0 first [] (by decide) rfl .done
    | cons next rest induction =>
      exact .ends (first :: next :: rest) 1 next (rest ++ [first]) (by decide) rfl induction

theorem two_files_settle_together :
    (reconcileGroupPathsNative countingEnvironment firstEndsLast filesEverywhere 0
        {"a.txt", "b.txt"}).2.runs.map (List.map fun entry => entry.item.1) =
        [["a.txt", "b.txt"]] ∧
      (reconcileGroupPathsNative countingEnvironment firstEndsLast filesEverywhere 0
          {"a.txt", "b.txt"}).1 =
        (reconcileSerially countingEnvironment filesEverywhere 0 {"a.txt", "b.txt"}).1 := by
  have settles : countingEnvironment.Settles := fun _ _ _ _ => ⟨rfl, rfl⟩
  exact ⟨by with_unfolding_all decide, (pass_equals_serial_pass countingEnvironment settles 2 firstEndsLast
    unordered_firstEndsLast filesEverywhere 0 {"a.txt", "b.txt"}).1⟩

end Yadorilink.Reconcile

import Yadorilink.Reconcile.SerialOrder

/-! Which claims a pass gives while a conflict copy of the path is still to come. A copy is tried
before its original exactly when it comes before it in the order of the pass, which is decided by
the kinds of the two and by where their names sort. -/

namespace Yadorilink.Reconcile

open Std Independence RankedWindow List

variable {σ ε : Type}

/-- An entry with a claim has no conflict copy among the work that is not settled by now. -/
def SettledCopies (work : ExtTreeMap SyncPath Work) (entry : RunEntry) (ledger : Ledger ε) :
    Prop :=
  entry.claim.isSome = true → ∀ copy ∈ work, copy ≠ entry.item.1 →
    isConflictCopyOf copy entry.item.1 = true → copy ∈ ledger.settled ∧ copy ∉ ledger.retry

/-- In every pass over the work, a path is settled with a claim only once its conflict copies are
settled. -/
def ClaimsAfterCopies (work : ExtTreeMap SyncPath Work) : Prop :=
  ∀ (σ ε : Type) (env : Environment σ ε) (limit : Nat)
    (schedule : List (RunEntry × Nat) → List (RunEntry × Nat)),
    (∀ entries, Unordered (max limit 1) entries (schedule entries)) →
    ∀ (world : σ) (retry contested : ExtTreeSet SyncPath),
      ∀ attempt ∈ ((Pass.start world ⟨work, retry, contested⟩).settleWork env schedule
        (workOrder work)).attempts, SettledCopies work attempt.entry attempt.ledger

/-- Every conflict copy among the work comes before its original in the order of the pass. -/
def CopiesFirst (work : ExtTreeMap SyncPath Work) : Prop :=
  ∀ (copy path : SyncPath) (copied : Work) (node : NativePlannedNode),
    work[copy]? = some copied → work[path]? = some (.node node) → copy ≠ path →
    isConflictCopyOf copy path = true → orderKey (copy, copied) < orderKey (path, .node node)

/-! ## The order -/

section Order

variable {work : ExtTreeMap SyncPath Work}

theorem mem_workOrder {item : Item} : item ∈ workOrder work ↔ work[item.1]? = some item.2 := by
  rw [workOrder, mem_ranked, ExtTreeMap.mem_toList_iff_getElem?_eq_some]

theorem eq_of_orderKey {first second : Item} (same : orderKey first = orderKey second) :
    first.1 = second.1 := by
  have outer := congrArg Prod.snd (congrArg ofLex same)
  have middle := congrArg Prod.snd (congrArg ofLex outer)
  exact congrArg Prod.snd (congrArg ofLex middle)

theorem mem_of_orderKey_lt {done rest : List Item} {item earlier : Item}
    (split : workOrder work = done ++ item :: rest) (inWork : earlier ∈ workOrder work)
    (before : orderKey earlier < orderKey item) : earlier ∈ done := by
  have ordered : (workOrder work).Pairwise fun first second => orderKey first ≤ orderKey second :=
    pairwise_ranked _
  rw [split] at inWork ordered
  rcases mem_append.mp inWork with taken | left
  · exact taken
  · rcases mem_cons.mp left with rfl | later
    · exact absurd before (lt_irrefl _)
    · have above := (pairwise_cons.mp (pairwise_append.mp ordered).2.1).1 earlier later
      exact absurd before above.not_gt

theorem orderKey_lt_of_mem {done rest : List Item} {item earlier : Item}
    (split : workOrder work = done ++ item :: rest) (taken : earlier ∈ done) :
    orderKey earlier < orderKey item := by
  have ordered : (workOrder work).Pairwise fun first second => orderKey first ≤ orderKey second :=
    pairwise_ranked _
  have distinct := nodup_workOrder work
  rw [split] at ordered distinct
  have below := (pairwise_append.mp ordered).2.2 earlier taken item (.head _)
  apply below.lt_of_ne
  intro same
  rw [map_append, map_cons, nodup_append] at distinct
  exact distinct.2.2 earlier.1 (mem_map_of_mem taken) item.1 (.head _)
    (eq_of_orderKey same)

end Order

/-! ## Everything taken is recorded or in the run -/

namespace Pass

variable {env : Environment σ ε} {schedule : List (RunEntry × Nat) → List (RunEntry × Nat)}
  {work : ExtTreeMap SyncPath Work} {pass : Pass σ ε}

def Held (ledger : Ledger ε) (path : SyncPath) : Prop :=
  path ∈ ledger.settled ∨ path ∈ ledger.retry

theorem held_record_self (ledger : Ledger ε) (item : Item) (onDisk : Bool)
    (outcome : MaterializeResult ε) : Held (ledger.record item onDisk outcome) item.1 := by
  cases outcome with
  | settled evidence => exact .inl (Ledger.mem_insert_settled_iff.mpr (.inl rfl))
  | retryRequired => exact .inr (Ledger.mem_insert_retry_iff.mpr (.inl rfl))
  | failed => exact .inr (Ledger.mem_insert_retry_iff.mpr (.inl rfl))

theorem Held.record {ledger : Ledger ε} {path : SyncPath} (held : Held ledger path) (item : Item)
    (onDisk : Bool) (outcome : MaterializeResult ε) :
    Held (ledger.record item onDisk outcome) path := by
  cases outcome with
  | settled evidence =>
    exact held.imp (fun settled => Ledger.mem_insert_settled_iff.mpr (.inr settled)) id
  | retryRequired =>
    exact held.imp id fun retried => Ledger.mem_insert_retry_iff.mpr (.inr retried)
  | failed => exact held.imp id fun retried => Ledger.mem_insert_retry_iff.mpr (.inr retried)

theorem held_foldl_recordEntry (world : σ)
    (outcomes : List ((RunEntry × Nat) × MaterializeResult ε)) (ledger : Ledger ε)
    (path : SyncPath) (held : Held ledger path ∨ ∃ done ∈ outcomes, done.1.1.item.1 = path) :
    Held (outcomes.foldl (recordEntry env world) ledger) path := by
  induction outcomes generalizing ledger with
  | nil =>
    rcases held with held | ⟨done, member, -⟩
    · exact held
    · cases member
  | cons first rest induction =>
    apply induction
    rcases held with held | ⟨done, member, rfl⟩
    · exact .inl (held.record ..)
    · rcases mem_cons.mp member with rfl | later
      · exact .inl (held_record_self ..)
      · exact .inr ⟨done, later, rfl⟩

theorem mem_execute {settle : σ → RunEntry × Nat → MaterializeResult ε × σ} {world : σ}
    {tasks : List (RunEntry × Nat)} {task : RunEntry × Nat} (member : task ∈ tasks) :
    ∃ done ∈ (execute settle world tasks).1, done.1 = task := by
  induction tasks generalizing world with
  | nil => cases member
  | cons first rest induction =>
    rw [execute]
    dsimp only
    rcases mem_cons.mp member with rfl | later
    · exact ⟨_, .head _, rfl⟩
    · rcases induction later with ⟨done, found, same⟩
      exact ⟨done, .tail _ found, same⟩

theorem held_settlePlainRun
    (permutes : ∀ entries : List (RunEntry × Nat), entries.Perm (schedule entries))
    {path : SyncPath} (held : Held pass.ledger path ∨ ∃ entry ∈ pass.run, entry.item.1 = path) :
    Held (pass.settlePlainRun env schedule).ledger path := by
  rw [settlePlainRun]
  split
  · rename_i empty
    rcases held with held | ⟨entry, member, -⟩
    · exact held
    · rw [isEmpty_iff.mp empty] at member
      cases member
  · apply held_foldl_recordEntry
    rcases held with held | ⟨entry, member, rfl⟩
    · exact .inl held
    · have named : entry ∈ pass.run.zipIdx.map Prod.fst := by
        rw [zipIdx_map_fst]
        exact member
      rcases mem_map.mp named with ⟨task, inRun, rfl⟩
      have scheduled := (permutes pass.run.zipIdx).mem_iff.mp inRun
      rcases @mem_execute _ _ (settleEntry env) pass.world _ _ scheduled with ⟨done, found, same⟩
      exact .inr ⟨done, mem_ranked.mpr found, same ▸ rfl⟩

/-! ## Copies that come first are settled first -/

/-- Everything taken is recorded or in the run, and what was given a claim had its copies settled. -/
structure CopiesSettled (work : ExtTreeMap SyncPath Work) (done : List Item) (pass : Pass σ ε) :
    Prop where
  taken : ∀ item ∈ done, Held pass.ledger item.1 ∨ ∃ entry ∈ pass.run, entry.item.1 = item.1
  attempts : ∀ attempt ∈ pass.attempts, SettledCopies work attempt.entry attempt.ledger
  run : ∀ entry ∈ pass.run, SettledCopies work entry pass.ledger

variable {done rest : List Item} {item : Item}

theorem attempts_settlePlainRun {attempt : Attempt ε}
    (member : attempt ∈ (pass.settlePlainRun env schedule).attempts) :
    attempt ∈ pass.attempts ∨ attempt.entry ∈ pass.run ∧ attempt.ledger = pass.ledger := by
  rw [settlePlainRun] at member
  split at member
  · exact .inl member
  · rcases mem_append.mp member with before | here
    · exact .inl before
    · rcases mem_map.mp here with ⟨entry, inRun, rfl⟩
      exact .inr ⟨inRun, rfl⟩

theorem CopiesSettled.settlePlainRun
    (permutes : ∀ entries : List (RunEntry × Nat), entries.Perm (schedule entries))
    (settled : CopiesSettled work done pass) :
    CopiesSettled work done (pass.settlePlainRun env schedule) where
  taken := fun item member => .inl (held_settlePlainRun permutes (settled.taken item member))
  attempts := by
    intro attempt member
    rcases attempts_settlePlainRun member with before | ⟨inRun, same⟩
    · exact settled.attempts attempt before
    · rw [same]
      exact settled.run attempt.entry inRun
  run := by
    rw [run_settlePlainRun]
    exact fun entry member => absurd member not_mem_nil

/-- The copies of an item that come before it are settled when it is given a claim, unless they are
in the run. -/
theorem CopiesSettled.settledCopies (settled : CopiesSettled work done pass)
    (copiesFirst : CopiesFirst work) (split : workOrder work = done ++ item :: rest)
    {node : NativePlannedNode} (isNode : item.2 = .node node)
    (free : ∀ entry ∈ pass.run, isConflictCopyOf entry.item.1 item.1 = false) :
    SettledCopies work ⟨item, env.claimFor pass.ledger.retry item.1⟩ pass.ledger := by
  intro claimed copy inWork apart isCopy
  have unretried : copy ∉ pass.ledger.retry := by
    intro retried
    have blocks : (pass.ledger.retry.toList.any fun other =>
        isConflictCopyOf other item.1) = true :=
      any_eq_true.mpr ⟨copy, ExtTreeSet.mem_toList.mpr retried, isCopy⟩
    rw [Environment.claimFor, if_pos blocks] at claimed
    cases claimed
  refine ⟨?_, unretried⟩
  rcases Option.isSome_iff_exists.mp (ExtTreeMap.mem_iff_isSome_getElem?.mp inWork)
    with ⟨copied, held⟩
  have itemWork : work[item.1]? = some (.node node) := by
    rw [← isNode]
    apply mem_workOrder.mp
    rw [split]
    exact mem_append_right _ (.head _)
  have before := copiesFirst copy item.1 copied node held itemWork apart isCopy
  have itemShape : item = (item.1, Work.node node) := Prod.ext rfl isNode
  rw [← itemShape] at before
  have member := mem_of_orderKey_lt split (mem_workOrder.mpr held) before
  rcases settled.taken (copy, copied) member with (inSettled | inRetry) | ⟨entry, inRun, same⟩
  · exact inSettled
  · exact absurd inRetry unretried
  · have clear := free entry inRun
    rw [same, isCopy] at clear
    cases clear

theorem CopiesSettled.gather
    (permutes : ∀ entries : List (RunEntry × Nat), entries.Perm (schedule entries))
    (copiesFirst : CopiesFirst work) (split : workOrder work = done ++ item :: rest)
    (plain : isPlainEntry item.2 = true) (settled : CopiesSettled work done pass) :
    CopiesSettled work (done ++ [item]) (pass.gather env schedule item) := by
  have push : ∀ {next : Pass σ ε}, CopiesSettled work done next →
      (∀ entry ∈ next.run, isConflictCopyOf entry.item.1 item.1 = false) →
      CopiesSettled work (done ++ [item])
        { next with run := next.run ++ [⟨item, env.claimFor next.ledger.retry item.1⟩] } := by
    intro next settled free
    constructor
    · intro other member
      rcases mem_append.mp member with before | here
      · rcases settled.taken other before with held | ⟨entry, inRun, same⟩
        · exact .inl held
        · exact .inr ⟨entry, mem_append_left _ inRun, same⟩
      · rw [mem_singleton.mp here]
        exact .inr ⟨_, mem_append_right _ (.head _), rfl⟩
    · exact settled.attempts
    · refine forall_mem_concat settled.run ?_
      cases shape : item.2 with
      | absent =>
        rw [shape] at plain
        cases plain
      | node node => exact settled.settledCopies copiesFirst split shape free
  rw [Pass.gather]
  cases conflict : conflictsWithRun env.canonicalFold pass.run item.1 with
  | true =>
    apply push (settled.settlePlainRun permutes)
    rw [run_settlePlainRun]
    exact fun entry member => absurd member not_mem_nil
  | false =>
    apply push settled
    intro entry member
    have apart := conflictsWithRun_false conflict entry member
    rw [clash, Bool.or_eq_false_iff, Bool.or_eq_false_iff] at apart
    exact apart.1.2

theorem CopiesSettled.take (settled : CopiesSettled work done pass) (idle : pass.run = [])
    (next : Pass σ ε) (sameRun : next.run = pass.run) (here : Held next.ledger item.1)
    (kept : ∀ path, Held pass.ledger path → Held next.ledger path)
    (attempts : ∀ attempt ∈ next.attempts, SettledCopies work attempt.entry attempt.ledger) :
    CopiesSettled work (done ++ [item]) next := by
  refine ⟨fun other member => ?_, attempts, fun entry member => ?_⟩
  · rcases mem_append.mp member with before | last
    · rcases settled.taken other before with held | ⟨entry, inRun, -⟩
      · exact .inl (kept other.1 held)
      · rw [idle] at inRun
        cases inRun
    · rw [mem_singleton.mp last]
      exact .inl here
  · rw [sameRun, idle] at member
    cases member

theorem CopiesSettled.settleAlone (copiesFirst : CopiesFirst work)
    (split : workOrder work = done ++ item :: rest) (idle : pass.run = [])
    (settled : CopiesSettled work done pass) :
    CopiesSettled work (done ++ [item]) (pass.settleAlone env item) := by
  apply settled.take idle (pass.settleAlone env item) rfl (held_record_self ..)
    fun path held => held.record ..
  refine forall_mem_concat settled.attempts ?_
  cases shape : item.2 with
  | absent =>
    intro claimed
    rw [claimOf, shape] at claimed
    cases claimed
  | node node =>
    have claim : claimOf env pass.ledger item = env.claimFor pass.ledger.retry item.1 := by
      rw [claimOf, shape]
    rw [claim]
    apply settled.settledCopies copiesFirst split shape
    rw [idle]
    exact fun entry member => absurd member not_mem_nil

theorem CopiesSettled.behindGate (copiesFirst : CopiesFirst work)
    (split : workOrder work = done ++ item :: rest) (idle : pass.run = []) (gate : Gate)
    (settled : CopiesSettled work done pass) :
    CopiesSettled work (done ++ [item]) (pass.behindGate env item gate) := by
  cases gate with
  | ignored =>
    apply settled.take idle (pass.excluded env item.1) rfl _ _ settled.attempts
    · exact .inl (Ledger.mem_insert_settled_iff.mpr (.inl rfl))
    · exact fun path held =>
        held.imp (fun inside => Ledger.mem_insert_settled_iff.mpr (.inr inside)) id
  | declined =>
    apply settled.take idle (pass.declined item.1) rfl _ _ settled.attempts
    · exact .inr (Ledger.mem_insert_retry_iff.mpr (.inl rfl))
    · exact fun path held =>
        held.imp id fun inside => Ledger.mem_insert_retry_iff.mpr (.inr inside)
  | open_ => exact settled.settleAlone copiesFirst split idle

theorem CopiesSettled.step
    (permutes : ∀ entries : List (RunEntry × Nat), entries.Perm (schedule entries))
    (copiesFirst : CopiesFirst work) (split : workOrder work = done ++ item :: rest)
    (settled : CopiesSettled work done pass) :
    CopiesSettled work (done ++ [item]) (pass.step env schedule item) := by
  rw [Pass.step]
  split
  · rename_i both
    rw [Bool.and_eq_true] at both
    exact settled.gather permutes copiesFirst split both.2
  · exact (settled.settlePlainRun permutes).behindGate copiesFirst split
      (run_settlePlainRun pass) _

theorem CopiesSettled.foldl
    (permutes : ∀ entries : List (RunEntry × Nat), entries.Perm (schedule entries))
    (copiesFirst : CopiesFirst work) (split : workOrder work = done ++ rest)
    (settled : CopiesSettled work done pass) :
    CopiesSettled work (workOrder work) (rest.foldl (Pass.step env schedule) pass) := by
  induction rest generalizing done pass with
  | nil =>
    rw [append_nil] at split
    rw [split]
    exact settled
  | cons item rest induction =>
    apply induction _ (settled.step permutes copiesFirst split)
    rw [append_assoc]
    exact split

/-! ## A copy that comes later is not settled yet -/

/-- Nothing holds a path back, every path is claimed, and settling succeeds. -/
def unhindered : Environment Unit Unit where
  ignored := fun _ => false
  paused := []
  frozen := false
  claims := fun _ => some ⟨1, 1⟩
  canonicalFold := id
  settle := fun _ _ _ => (.settled (), ())
  directoryOnDisk := fun _ _ => true
  ignoreExcluded := ()

/-- The entry was given a claim when only items before it were settled. -/
def Early (work : ExtTreeMap SyncPath Work) (entry : RunEntry) (ledger : Ledger Unit) : Prop :=
  entry.claim.isSome = true ∧
    ∀ path ∈ ledger.settled, ∃ earlier ∈ workOrder work, earlier.1 = path ∧
      orderKey earlier < orderKey entry.item

/-- A pass in which nothing is tried again, and every node taken was given a claim early. -/
structure Smooth (work : ExtTreeMap SyncPath Work) (done : List Item) (pass : Pass Unit Unit) :
    Prop where
  retry : pass.ledger.retry = ∅
  unshaped : pass.ledger.unshaped = ∅
  settled : ∀ path ∈ pass.ledger.settled, ∃ item ∈ done, item.1 = path
  run : ∀ entry ∈ pass.run, entry.item ∈ done ∧ Early work entry pass.ledger
  claimed : ∀ item ∈ done, item.2 ≠ .absent →
    (∃ attempt ∈ pass.attempts, attempt.entry.item = item ∧
        Early work attempt.entry attempt.ledger) ∨
      ∃ entry ∈ pass.run, entry.item = item

variable {smooth : Pass Unit Unit}

theorem passGate_unhindered {unshaped : ExtTreeSet SyncPath} (none : unshaped = ∅)
    (path : SyncPath) : unhindered.passGate unshaped path = .open_ := by
  subst none
  simp [Environment.passGate, unhindered]

theorem claimFor_unhindered {retry : ExtTreeSet SyncPath} (none : retry = ∅) (path : SyncPath) :
    (unhindered.claimFor retry path).isSome = true := by
  subst none
  simp [Environment.claimFor, unhindered]

theorem settled_foldl_recordEntry (outcomes : List ((RunEntry × Nat) × MaterializeResult Unit))
    (ledger : Ledger Unit) (all : ∀ done ∈ outcomes, done.2 = .settled ()) :
    (outcomes.foldl (recordEntry unhindered ()) ledger).retry = ledger.retry ∧
      (outcomes.foldl (recordEntry unhindered ()) ledger).unshaped = ledger.unshaped ∧
      ∀ path ∈ (outcomes.foldl (recordEntry unhindered ()) ledger).settled,
        path ∈ ledger.settled ∨ ∃ done ∈ outcomes, done.1.1.item.1 = path := by
  induction outcomes generalizing ledger with
  | nil => exact ⟨rfl, rfl, fun _ => .inl⟩
  | cons first rest induction =>
    rcases induction (recordEntry unhindered () ledger first)
      fun done member => all done (.tail first member) with ⟨retry, unshaped, paths⟩
    have here : recordEntry unhindered () ledger first =
        { ledger with settled := ledger.settled.insert first.1.1.item.1 () } := by
      rw [recordEntry, all first (.head _)]
      rfl
    rw [here] at retry unshaped paths
    rw [foldl_cons, here]
    refine ⟨retry, unshaped, fun path member => ?_⟩
    rcases paths path member with before | ⟨done, later, same⟩
    · rcases Ledger.mem_insert_settled_iff.mp before with same | earlier
      · exact .inr ⟨first, .head _, same⟩
      · exact .inl earlier
    · exact .inr ⟨done, .tail first later, same⟩

theorem execute_unhindered {tasks : List (RunEntry × Nat)}
    {done : (RunEntry × Nat) × MaterializeResult Unit}
    (member : done ∈ (execute (settleEntry unhindered) () tasks).1) :
    done.1 ∈ tasks ∧ done.2 = .settled () := by
  induction tasks with
  | nil => cases member
  | cons first rest induction =>
    rcases mem_cons.mp member with rfl | later
    · exact ⟨.head _, rfl⟩
    · exact ⟨.tail first (induction later).1, (induction later).2⟩

section

variable (smoothly : Smooth work done smooth)

include smoothly

theorem Smooth.settlePlainRun :
    Smooth work done (smooth.settlePlainRun unhindered id) := by
  rw [Pass.settlePlainRun]
  split
  · exact smoothly
  · rcases settled_foldl_recordEntry
      (ranked (fun done => done.1.2) (execute (settleEntry unhindered) () smooth.run.zipIdx).1)
      smooth.ledger fun done member => (execute_unhindered (mem_ranked.mp member)).2
      with ⟨retry, unshaped, paths⟩
    constructor
    · exact retry.trans smoothly.retry
    · exact unshaped.trans smoothly.unshaped
    · intro path member
      rcases paths path member with before | ⟨outcome, found, rfl⟩
      · exact smoothly.settled path before
      · have inRun := (execute_unhindered (mem_ranked.mp found)).1
        have named : outcome.1.1 ∈ smooth.run.zipIdx.map Prod.fst := mem_map_of_mem inRun
        rw [zipIdx_map_fst] at named
        exact ⟨_, (smoothly.run _ named).1, rfl⟩
    · exact fun entry member => absurd member not_mem_nil
    · intro item member node
      rcases smoothly.claimed item member node with ⟨attempt, before, same⟩ | ⟨entry, inRun, rfl⟩
      · exact .inl ⟨attempt, mem_append_left _ before, same⟩
      · refine .inl ⟨⟨entry, smooth.ledger⟩, mem_append_right _ ?_, rfl, ?_⟩
        · exact mem_map_of_mem inRun
        · exact (smoothly.run entry inRun).2

theorem Smooth.early
    (split : workOrder work = done ++ item :: rest) :
    Early work ⟨item, unhindered.claimFor smooth.ledger.retry item.1⟩ smooth.ledger := by
  refine ⟨claimFor_unhindered smoothly.retry item.1, fun path member => ?_⟩
  rcases smoothly.settled path member with ⟨earlier, taken, same⟩
  refine ⟨earlier, ?_, same, orderKey_lt_of_mem split taken⟩
  rw [split]
  exact mem_append_left _ taken

theorem Smooth.push
    (split : workOrder work = done ++ item :: rest) :
    Smooth work (done ++ [item]) { smooth with
        run := smooth.run ++ [⟨item, unhindered.claimFor smooth.ledger.retry item.1⟩] } where
  retry := smoothly.retry
  unshaped := smoothly.unshaped
  settled := by
    intro path member
    rcases smoothly.settled path member with ⟨earlier, taken, same⟩
    exact ⟨earlier, mem_append_left _ taken, same⟩
  run := by
    intro entry member
    rcases mem_append.mp member with before | here
    · exact ⟨mem_append_left _ (smoothly.run entry before).1, (smoothly.run entry before).2⟩
    · rw [mem_singleton.mp here]
      exact ⟨mem_append_right _ (.head _), smoothly.early split⟩
  claimed := by
    intro other member node
    rcases mem_append.mp member with before | here
    · rcases smoothly.claimed other before node with attempted | ⟨entry, inRun, same⟩
      · exact .inl attempted
      · exact .inr ⟨entry, mem_append_left _ inRun, same⟩
    · rw [mem_singleton.mp here]
      exact .inr ⟨_, mem_append_right _ (.head _), rfl⟩

theorem Smooth.settleAlone (idle : smooth.run = [])
    (split : workOrder work = done ++ item :: rest) :
    Smooth work (done ++ [item]) (smooth.settleAlone unhindered item) where
  retry := smoothly.retry
  unshaped := smoothly.unshaped
  settled := by
    intro path member
    rcases Ledger.mem_insert_settled_iff.mp member with same | before
    · exact ⟨item, mem_append_right _ (.head _), same⟩
    · rcases smoothly.settled path before with ⟨earlier, taken, same⟩
      exact ⟨earlier, mem_append_left _ taken, same⟩
  run := by
    intro entry member
    change entry ∈ smooth.run at member
    rw [idle] at member
    cases member
  claimed := by
    intro other member node
    rcases mem_append.mp member with before | here
    · rcases smoothly.claimed other before node with ⟨attempt, made, same⟩ | ⟨entry, inRun, -⟩
      · exact .inl ⟨attempt, mem_append_left _ made, same⟩
      · rw [idle] at inRun
        cases inRun
    · have same := mem_singleton.mp here
      subst same
      have claim : claimOf unhindered smooth.ledger other =
          unhindered.claimFor smooth.ledger.retry other.1 := by
        rw [claimOf]
        cases shape : other.2 with
        | absent => exact absurd shape node
        | node planned => rfl
      refine .inl ⟨⟨⟨other, claimOf unhindered smooth.ledger other⟩, smooth.ledger⟩,
        mem_append_right _ (.head _), rfl, ?_⟩
      rw [claim]
      exact smoothly.early split

theorem Smooth.step
    (split : workOrder work = done ++ item :: rest) :
    Smooth work (done ++ [item]) (smooth.step unhindered id item) := by
  rw [Pass.step, passGate_unhindered smoothly.unshaped]
  split
  · rw [Pass.gather]
    cases conflictsWithRun unhindered.canonicalFold smooth.run item.1 with
    | true => exact smoothly.settlePlainRun.push split
    | false => exact smoothly.push split
  · exact smoothly.settlePlainRun.settleAlone (run_settlePlainRun smooth) split

theorem Smooth.foldl (split : workOrder work = done ++ rest) :
    Smooth work (workOrder work) (rest.foldl (Pass.step unhindered id) smooth) := by
  induction rest generalizing done smooth with
  | nil =>
    rw [append_nil] at split
    rw [split]
    exact smoothly
  | cons item rest induction =>
    apply induction (smoothly.step split)
    rw [append_assoc]
    exact split

end

end Pass

/-! ## Exactly when claims wait for copies -/

theorem unordered_id {limit : Nat} (entries : List (RunEntry × Nat)) :
    Unordered (max limit 1) entries (id entries) := by
  induction entries with
  | nil => exact .done
  | cons first rest induction =>
    exact .ends (first :: rest) 0 first rest (by omega) rfl induction

/-- A pass over the work gives claims only after conflict copies exactly if each copy comes before
its original in the order of the pass. -/
theorem claims_after_copies_iff (work : ExtTreeMap SyncPath Work) :
    ClaimsAfterCopies work ↔ CopiesFirst work := by
  constructor
  · intro waits copy path copied node copyWork pathWork apart isCopy
    have start : Pass.Smooth work [] (Pass.start () ⟨work, ∅, ∅⟩) := by
      refine ⟨rfl, rfl, fun path member => ?_, fun entry member => ?_, fun item member => ?_⟩
      · exact absurd member ExtTreeMap.not_mem_empty
      · exact absurd member List.not_mem_nil
      · exact absurd member List.not_mem_nil
    have smoothly := (@Pass.Smooth.foldl work [] (workOrder work) _ start rfl).settlePlainRun
    have listed : ((path, Work.node node) : Item) ∈ workOrder work := mem_workOrder.mpr pathWork
    rcases smoothly.claimed _ listed (fun same => by cases same) with ⟨attempt, made, same, early⟩ | ⟨entry, inRun, -⟩
    · have settled := (waits Unit Unit Pass.unhindered 1 id unordered_id () ∅ ∅ attempt made
        early.1 copy (ExtTreeMap.mem_iff_isSome_getElem?.mpr (Option.isSome_of_eq_some copyWork))
        (same ▸ apart) (same ▸ isCopy)).1
      rcases early.2 copy settled with ⟨earlier, inOrder, named, before⟩
      have found := mem_workOrder.mp inOrder
      rw [named, copyWork] at found
      have shape : earlier = (copy, copied) := Prod.ext named (Option.some.inj found).symm
      rw [shape, same] at before
      exact before
    · rw [Pass.run_settlePlainRun] at inRun
      cases inRun
  · intro copiesFirst σ ε env limit schedule unordered world retry contested attempt made
    have permutes := fun entries => (unordered entries).perm
    have start : Pass.CopiesSettled work [] (Pass.start world ⟨work, retry, contested⟩ : Pass σ ε) :=
      ⟨fun item member => absurd member List.not_mem_nil,
        fun attempt member => absurd member List.not_mem_nil,
        fun entry member => absurd member List.not_mem_nil⟩
    have whole := @Pass.CopiesSettled.foldl _ _ env schedule work _ [] (workOrder work) permutes
      copiesFirst rfl start
    exact (whole.settlePlainRun permutes).attempts attempt made

def copyOfNotes : SyncPath :=
  "notes (conflicted copy, laptop, 00112233445566778899aabbccddeeff)"

/-- A file with no extension, and a conflict copy of it. -/
def notesAndCopy : ExtTreeMap SyncPath Work :=
  (ExtTreeMap.insert ∅ "notes" (.node plainFile)).insert copyOfNotes (.node plainFile)

/-- `notes` sorts before its copy, so it is settled with its claim before the copy is tried. -/
theorem notes_claimed_before_copy : ¬ ClaimsAfterCopies notesAndCopy := by
  intro waits
  have early : ((Pass.start () ⟨notesAndCopy, ∅, ∅⟩).settleWork Pass.unhindered id
      (workOrder notesAndCopy)).attempts.any (fun attempt =>
        attempt.entry.item.1 == "notes" && attempt.entry.claim.isSome &&
          !attempt.ledger.settled.contains copyOfNotes) = true := by
    decide
  rcases List.any_eq_true.mp early with ⟨attempt, made, facts⟩
  simp only [Bool.and_eq_true, beq_iff_eq, Bool.not_eq_true'] at facts
  rcases facts with ⟨⟨named, claimed⟩, unsettled⟩
  have settled := waits Unit Unit Pass.unhindered 1 id unordered_id () ∅ ∅ attempt made claimed
    copyOfNotes (by decide) (by rw [named]; decide) (by rw [named]; decide)
  rw [ExtTreeMap.mem_iff_contains, unsettled] at settled
  cases settled.1

end Yadorilink.Reconcile

import Yadorilink.Debounce.Accumulator
import Yadorilink.Domain.Ids

/-! The journal of dirty paths. A flush journals a path with the time its change was observed, reads
the file, and clears the row if it still has that time. Flushes come from live events and from
re-drives, which replay rows listed earlier; they interleave in any order. -/

namespace Yadorilink.DirtyJournal

open Std Machine Debounce OrderedMap Function List Option

/-! ## The table -/

/-- A row of `local_dirty_paths`. -/
structure DirtyRow where
  changeKind : FsChangeKind
  firstSeenUnixNanos : Int
  observedAtUnixNanos : Int
  attempts : Nat
  lastError : Option String
  deriving DecidableEq

abbrev DirtyTable := ExtTreeMap SyncPath DirtyRow

/-- A row as a flush is driven from it. -/
structure DirtyPath where
  path : SyncPath
  changeKind : FsChangeKind
  observedAtUnixNanos : Int
  deriving DecidableEq

/-- The row a record leaves: the first time it was seen stays, the observation is replaced. -/
def recordedRow (previous : Option DirtyRow) (now : Int) (entry : DirtyPath) : DirtyRow :=
  match previous with
  | some row => ⟨entry.changeKind, row.firstSeenUnixNanos, entry.observedAtUnixNanos, 0, none⟩
  | none => ⟨entry.changeKind, now, entry.observedAtUnixNanos, 0, none⟩

def recordDirtyPath (table : DirtyTable) (now : Int) (entry : DirtyPath) : DirtyTable :=
  table.insert entry.path (recordedRow table[entry.path]? now entry)

/-- One transaction for a whole flush: the rows are recorded one after another. -/
def recordDirtyPathsBatch (table : DirtyTable) (now : Int) (entries : List DirtyPath) :
    DirtyTable :=
  entries.foldl (fun table entry => recordDirtyPath table now entry) table

def markDirtyPathAttempt (table : DirtyTable) (path : SyncPath) (lastError : String) :
    DirtyTable :=
  match table[path]? with
  | some row =>
    table.insert path { row with attempts := row.attempts + 1, lastError := some lastError }
  | none => table

def timeOf (table : DirtyTable) (path : SyncPath) : Option Int :=
  table[path]?.map DirtyRow.observedAtUnixNanos

/-- Deletes the row of a path if it still has the observation time. -/
def clearConditional (table : DirtyTable) (entry : SyncPath × Int) : DirtyTable :=
  if timeOf table entry.1 = some entry.2 then
    table.erase entry.1
  else
    table

def clearDirtyPathsConditionalBatch (table : DirtyTable) (entries : List (SyncPath × Int)) :
    DirtyTable :=
  entries.foldl clearConditional table

def listDirtyPaths (table : DirtyTable) : List DirtyPath :=
  table.toList.map fun row => ⟨row.1, row.2.changeKind, row.2.observedAtUnixNanos⟩

def changedDuringRead : String :=
  "content changed while it was being read; left for a later capture"

/-- A capture that could not be finished journals its path again. -/
def journalUncaptured (table : DirtyTable) (now : Int) (path : SyncPath)
    (observedAtUnixNanos : Int) : DirtyTable :=
  markDirtyPathAttempt
    (recordDirtyPath table now ⟨path, .createdOrModified, observedAtUnixNanos⟩) path
    changedDuringRead

/-! ## Flushes of paths -/

/-- A flush of one path. `contents` counts the edits that were in the file when it was read. -/
structure FlushRun where
  entry : DirtyPath
  contents : Option Nat

inductive FlushOutcome where
  /-- What was read is committed; the clear may fail, and leaves the row then. -/
  | captured (cleared : Bool)
  | failed (error : String)
  /-- The file changed while it was read. -/
  | retryLater

/-- The table with the flushes under way. `times`, `recorded` and `finished` are for the record:
the observation times of live events, how many edits of a path had happened when an event of it
was last recorded, and how many a successful flush had read. -/
structure Journal where
  table : DirtyTable
  edits : SyncPath → Nat
  runs : List (Nat × FlushRun)
  listed : List DirtyPath
  times : List Int
  recorded : SyncPath → Nat
  finished : List (SyncPath × Nat)

inductive FlushEvent where
  | edit (path : SyncPath)
  /-- A live event's flush starts: its observation time is a new one. -/
  | observe (id : Nat) (entry : DirtyPath) (now : Int)
  /-- A re-drive lists the journal. -/
  | list
  /-- A row that was listed is driven again. -/
  | replay (id : Nat) (entry : DirtyPath) (now : Int)
  | read (id : Nat)
  | finish (id : Nat) (outcome : FlushOutcome) (now : Int)
  /-- The daemon stops: only the table stays. -/
  | crash

namespace Journal

def empty : Journal :=
  ⟨∅, fun _ => 0, [], [], [], fun _ => 0, []⟩

def find (journal : Journal) (id : Nat) : Option FlushRun :=
  (journal.runs.find? fun run => run.1 == id).map Prod.snd

/-- The journal once a flush has recorded its path. -/
def start (journal : Journal) (id : Nat) (entry : DirtyPath) (now : Int) : Journal :=
  { journal with
    table := recordDirtyPathsBatch journal.table now [entry]
    runs := (id, ⟨entry, none⟩) :: journal.runs }

def observe (journal : Journal) (id : Nat) (entry : DirtyPath) (now : Int) : Journal :=
  { journal.start id entry now with
    times := entry.observedAtUnixNanos :: journal.times
    recorded := Function.update journal.recorded entry.path (journal.edits entry.path) }

/-- The file of a flush is read, for the first time or again after a fault. -/
def read (journal : Journal) (id : Nat) : Journal :=
  { journal with runs := journal.runs.map fun run =>
      if run.1 = id then (run.1, ⟨run.2.entry, some (journal.edits run.2.entry.path)⟩) else run }

def others (journal : Journal) (id : Nat) : List (Nat × FlushRun) :=
  journal.runs.filter fun run => run.1 != id

def captured (journal : Journal) (id : Nat) (entry : DirtyPath) (contents : Nat)
    (cleared : Bool) : Journal :=
  { journal with
    table := if cleared then
        clearDirtyPathsConditionalBatch journal.table [(entry.path, entry.observedAtUnixNanos)]
      else
        journal.table
    runs := journal.others id
    finished := (entry.path, contents) :: journal.finished }

def finish (journal : Journal) (id : Nat) (run : FlushRun) (now : Int) :
    FlushOutcome → Option Journal
  | .captured cleared => run.contents.map fun contents =>
    journal.captured id run.entry contents cleared
  | .failed error => some { journal with
      table := markDirtyPathAttempt journal.table run.entry.path error
      runs := journal.others id }
  | .retryLater => some { journal with
      table := journalUncaptured journal.table now run.entry.path run.entry.observedAtUnixNanos
      runs := journal.others id }

def step (journal : Journal) : FlushEvent → Option Journal
  | .edit path => some
      { journal with edits := Function.update journal.edits path (journal.edits path + 1) }
  | .observe id entry now =>
    if (journal.find id).isNone ∧ entry.observedAtUnixNanos ∉ journal.times then
      some (journal.observe id entry now)
    else
      none
  | .list => some { journal with listed := journal.listed ++ listDirtyPaths journal.table }
  | .replay id entry now =>
    if (journal.find id).isNone ∧ entry ∈ journal.listed then
      some (journal.start id entry now)
    else
      none
  | .read id => (journal.find id).map fun _ => journal.read id
  | .finish id outcome now => (journal.find id).bind fun run => journal.finish id run now outcome
  | .crash => some { journal with runs := [], listed := [] }

/-! ## The condition on a record -/

/-- A record of this time would replace another one. -/
def replacesTime (table : DirtyTable) (entry : DirtyPath) : Bool :=
  (timeOf table entry.path).any fun time => time != entry.observedAtUnixNanos

/-- None of the flushes with this path and time has read the file yet. -/
def unread (runs : List (Nat × FlushRun)) (entry : DirtyPath) : Bool :=
  runs.all fun run => run.2.entry.path != entry.path ||
    run.2.entry.observedAtUnixNanos != entry.observedAtUnixNanos || run.2.contents.isNone

/-- A time that was used before is put back over another one only while no unfinished flush with
it has read the file. -/
def putsBackSafely (journal : Journal) : FlushEvent → Bool
  | .replay _ entry _ => !replacesTime journal.table entry || unread journal.runs entry
  | .finish id .retryLater _ => (journal.find id).all fun run =>
    !replacesTime journal.table run.entry || unread (journal.others id) run.entry
  | _ => true

/-- An edit whose event was recorded, with no successful flush that read the file after it. -/
structure Uncaptured (journal : Journal) (path : SyncPath) (edit : Nat) : Prop where
  real : 1 ≤ edit
  recorded : edit ≤ journal.recorded path
  unread : ∀ done ∈ journal.finished, done.1 = path → done.2 < edit

/-! ## The invariant -/

/-- The path is journaled, and an unfinished flush that could clear its row has read the edit if it
has read the file at all. -/
def Guarded (journal : Journal) (path : SyncPath) (edit : Nat) : Prop :=
  ∃ time, timeOf journal.table path = some time ∧
    ∀ run ∈ journal.runs, run.2.entry.path = path → run.2.entry.observedAtUnixNanos = time →
      ∀ contents, run.2.contents = some contents → edit ≤ contents

structure Sound (journal : Journal) : Prop where
  runTimes : ∀ run ∈ journal.runs, run.2.entry.observedAtUnixNanos ∈ journal.times
  listedTimes : ∀ entry ∈ journal.listed, entry.observedAtUnixNanos ∈ journal.times
  rowTimes : ∀ path time, timeOf journal.table path = some time → time ∈ journal.times
  recorded : ∀ path, journal.recorded path ≤ journal.edits path
  guarded : ∀ path edit, journal.Uncaptured path edit → journal.Guarded path edit

end Journal

/-! ## The times after each operation -/

theorem timeOf_recordDirtyPath (table : DirtyTable) (now : Int) (entry : DirtyPath)
    (path : SyncPath) :
    timeOf (recordDirtyPath table now entry) path =
      if entry.path = path then some entry.observedAtUnixNanos else timeOf table path := by
  rw [timeOf, recordDirtyPath, getElem?_insert_eq]
  split
  · rw [recordedRow.eq_def]
    split
    · rfl
    · rfl
  · rfl

theorem timeOf_markDirtyPathAttempt (table : DirtyTable) (marked : SyncPath) (lastError : String)
    (path : SyncPath) :
    timeOf (markDirtyPathAttempt table marked lastError) path = timeOf table path := by
  rw [markDirtyPathAttempt]
  split
  · rename_i row held
    rw [timeOf, timeOf, getElem?_insert_eq]
    split
    · rename_i same
      rw [← same, held]
      rfl
    · rfl
  · rfl

theorem timeOf_journalUncaptured (table : DirtyTable) (now : Int) (entry : DirtyPath)
    (path : SyncPath) :
    timeOf (journalUncaptured table now entry.path entry.observedAtUnixNanos) path =
      if entry.path = path then some entry.observedAtUnixNanos else timeOf table path := by
  rw [journalUncaptured, timeOf_markDirtyPathAttempt, timeOf_recordDirtyPath]

theorem timeOf_clearConditional (table : DirtyTable) (entry : SyncPath × Int) (path : SyncPath) :
    timeOf (clearConditional table entry) path =
      if entry.1 = path ∧ timeOf table path = some entry.2 then none else timeOf table path := by
  rw [clearConditional]
  by_cases same : entry.1 = path
  · subst same
    by_cases matched : timeOf table entry.1 = some entry.2
    · rw [if_pos matched, if_pos ⟨rfl, matched⟩, timeOf, getElem?_erase_eq, if_pos rfl]
      rfl
    · rw [if_neg matched, if_neg (mt And.right matched)]
  · rw [if_neg (mt And.left same)]
    split
    · rw [timeOf, getElem?_erase_eq, if_neg same]
      rfl
    · rfl

variable {entry : DirtyPath}

theorem timeOf_of_mem_list {table : DirtyTable} (listed : entry ∈ listDirtyPaths table) :
    timeOf table entry.path = some entry.observedAtUnixNanos := by
  rcases mem_map.mp listed with ⟨row, member, rfl⟩
  rw [timeOf, ExtTreeMap.mem_toList_iff_getElem?_eq_some.mp member]
  rfl

/-! ## One step -/

namespace Journal

variable {journal next : Journal} {id : Nat}

theorem mem_of_find {run : FlushRun} (found : journal.find id = some run) :
    (id, run) ∈ journal.runs := by
  rcases map_eq_some_iff.mp found with ⟨pair, first, rfl⟩
  have named : (pair.1 == id) = true :=
    find?_some (p := fun run : Nat × FlushRun => run.1 == id) first
  exact eq_of_beq named ▸ mem_of_find?_eq_some first

theorem Uncaptured.mono {path : SyncPath} {edit : Nat} (uncaptured : next.Uncaptured path edit)
    (recorded : next.recorded path = journal.recorded path)
    (finished : ∀ done ∈ journal.finished, done ∈ next.finished) :
    journal.Uncaptured path edit :=
  ⟨uncaptured.real, recorded ▸ uncaptured.recorded,
    fun done member => uncaptured.unread done (finished done member)⟩

/-- A path whose time stays is guarded as before, if the flushes of it that have read the file are
among those before. -/
theorem Guarded.keep {path : SyncPath} {edit : Nat} (guarded : journal.Guarded path edit)
    (time : timeOf next.table path = timeOf journal.table path)
    (runs : ∀ run ∈ next.runs, run.2.entry.path = path → run.2.contents ≠ none →
      run ∈ journal.runs) :
    next.Guarded path edit := by
  rcases guarded with ⟨observed, held, reads⟩
  refine ⟨observed, time.trans held, fun run member here same contents read => ?_⟩
  have before := runs run member here fun none => by rw [none] at read; cases read
  exact reads run before here same contents read

/-- Flushes that have not read the file can clear a row without harm: they read it first. -/
theorem Guarded.ofUnread (edit : Nat)
    (time : timeOf journal.table entry.path = some entry.observedAtUnixNanos)
    (fresh : unread journal.runs entry = true) : journal.Guarded entry.path edit := by
  refine ⟨entry.observedAtUnixNanos, time, fun run member here same contents read => ?_⟩
  have unreadHere := all_eq_true.mp fresh run member
  simp [here, same, read] at unreadHere

/-- A record of a used time keeps what is guarded, where it does not put that time back over
another one while a flush with it has read the file. -/
theorem Guarded.record {entry : DirtyPath} {path : SyncPath} {edit : Nat}
    (guarded : journal.Guarded path edit)
    (times : ∀ path, timeOf next.table path =
      if entry.path = path then some entry.observedAtUnixNanos else timeOf journal.table path)
    (runs : ∀ run ∈ next.runs, run.2.contents ≠ none → run ∈ journal.runs)
    (safe : replacesTime journal.table entry = true → unread next.runs entry = true) :
    next.Guarded path edit := by
  by_cases here : entry.path = path
  · subst here
    have recorded := times entry.path
    rw [if_pos rfl] at recorded
    rcases guarded with ⟨time, held, reads⟩
    by_cases same : time = entry.observedAtUnixNanos
    · subst same
      exact Guarded.keep ⟨_, held, reads⟩ (recorded.trans held.symm)
        fun run member _ => runs run member
    · apply Guarded.ofUnread edit recorded
      apply safe
      rw [replacesTime, held]
      exact bne_iff_ne.mpr same
  · have unchanged := times path
    rw [if_neg here] at unchanged
    exact guarded.keep unchanged fun run member _ => runs run member

theorem mem_of_mem_others {run : Nat × FlushRun} (member : run ∈ journal.others id) :
    run ∈ journal.runs :=
  (mem_filter.mp member).1

theorem timeOf_start (journal : Journal) (id : Nat) (entry : DirtyPath) (now : Int)
    (path : SyncPath) :
    timeOf (journal.start id entry now).table path =
      if entry.path = path then some entry.observedAtUnixNanos else timeOf journal.table path :=
  timeOf_recordDirtyPath journal.table now entry path

theorem mem_of_mem_start {run : Nat × FlushRun}
    (member : run ∈ (id, ⟨entry, none⟩) :: journal.runs) (read : run.2.contents ≠ none) :
    run ∈ journal.runs := by
  rcases mem_cons.mp member with rfl | before
  · exact absurd rfl read
  · exact before

section

variable (sound : journal.Sound)

include sound

theorem Sound.observe (id : Nat) (now : Int)
    (new : entry.observedAtUnixNanos ∉ journal.times) : (journal.observe id entry now).Sound where
  runTimes := by
    exact forall_mem_cons.mpr ⟨.head _,
      fun run before => .tail _ (sound.runTimes run before)⟩
  listedTimes := fun listed member => .tail _ (sound.listedTimes listed member)
  rowTimes := by
    intro path time held
    have recorded := (timeOf_start journal id entry now path).symm.trans held
    split at recorded
    · cases recorded
      exact .head _
    · exact .tail _ (sound.rowTimes path time recorded)
  recorded := by
    intro path
    change Function.update journal.recorded entry.path (journal.edits entry.path) path ≤
      journal.edits path
    by_cases here : path = entry.path
    · subst here
      rw [update_self]
    · rw [update_of_ne here]
      exact sound.recorded path
  guarded := by
    intro path edit uncaptured
    by_cases here : path = entry.path
    · subst here
      apply Guarded.ofUnread edit
      · exact (timeOf_start journal id entry now entry.path).trans (if_pos rfl)
      · -- No other flush has a time that is new.
        apply all_eq_true.mpr
        intro run member
        rcases mem_cons.mp member with rfl | before
        · simp
        · have other : run.2.entry.observedAtUnixNanos ≠ entry.observedAtUnixNanos :=
            fun same => new (same ▸ sound.runTimes run before)
          simp [other]
    · have before : journal.Uncaptured path edit :=
        uncaptured.mono (update_of_ne here ..) fun _ member => member
      apply (sound.guarded path edit before).keep
      · exact (timeOf_start journal id entry now path).trans (if_neg fun same => here same.symm)
      · exact fun run member _ => mem_of_mem_start member

theorem Sound.replay (id : Nat) (now : Int)
    (listed : entry ∈ journal.listed)
    (safe : putsBackSafely journal (.replay id entry now) = true) :
    (journal.start id entry now).Sound where
  runTimes := by
    exact forall_mem_cons.mpr ⟨sound.listedTimes entry listed, sound.runTimes⟩
  listedTimes := sound.listedTimes
  rowTimes := by
    intro path time held
    rw [timeOf_start] at held
    split at held
    · cases held
      exact sound.listedTimes entry listed
    · exact sound.rowTimes path time held
  recorded := sound.recorded
  guarded := by
    intro path edit uncaptured
    have before : journal.Uncaptured path edit := uncaptured.mono rfl fun _ member => member
    apply (sound.guarded path edit before).record (timeOf_start journal id entry now)
      fun run member => mem_of_mem_start member
    intro replaces
    rw [putsBackSafely, replaces, Bool.not_true, Bool.false_or] at safe
    apply all_eq_true.mpr
    intro run member
    rcases mem_cons.mp member with rfl | before
    · simp
    · exact all_eq_true.mp safe run before

theorem Sound.edit (path : SyncPath) :
    Sound { journal with edits := Function.update journal.edits path (journal.edits path + 1) } where
  runTimes := sound.runTimes
  listedTimes := sound.listedTimes
  rowTimes := sound.rowTimes
  recorded := by
    intro other
    apply (sound.recorded other).trans
    change journal.edits other ≤ Function.update journal.edits path (journal.edits path + 1) other
    by_cases here : other = path
    · subst here
      rw [update_self]
      exact Nat.le_succ _
    · rw [update_of_ne here]
  guarded := fun other edit uncaptured =>
    sound.guarded other edit (uncaptured.mono rfl fun _ member => member)

theorem Sound.list :
    Sound { journal with listed := journal.listed ++ listDirtyPaths journal.table } where
  runTimes := sound.runTimes
  listedTimes := by
    exact forall_mem_append.mpr ⟨sound.listedTimes,
      fun entry now => sound.rowTimes entry.path _ (timeOf_of_mem_list now)⟩
  rowTimes := sound.rowTimes
  recorded := sound.recorded
  guarded := fun path edit uncaptured =>
    sound.guarded path edit (uncaptured.mono rfl fun _ member => member)

theorem Sound.read (id : Nat) : (journal.read id).Sound where
  runTimes := by
    intro run member
    rcases mem_map.mp member with ⟨earlier, before, rfl⟩
    split
    · exact sound.runTimes earlier before
    · exact sound.runTimes earlier before
  listedTimes := sound.listedTimes
  rowTimes := sound.rowTimes
  recorded := sound.recorded
  guarded := by
    intro path edit uncaptured
    have recorded : edit ≤ journal.edits path := uncaptured.recorded.trans (sound.recorded path)
    rcases sound.guarded path edit (uncaptured.mono rfl fun _ member => member)
      with ⟨time, held, reads⟩
    refine ⟨time, held, fun run member here same contents read => ?_⟩
    rcases mem_map.mp member with ⟨earlier, before, rfl⟩
    split at here
    · rename_i reading
      rw [if_pos reading] at read
      cases read
      exact here ▸ recorded
    · rename_i reading
      rw [if_neg reading] at same read
      exact reads earlier before here same contents read

theorem Sound.captured {run : FlushRun} {contents : Nat}
    (under : (id, run) ∈ journal.runs) (read : run.contents = some contents) (cleared : Bool) :
    (journal.captured id run.entry contents cleared).Sound where
  runTimes := fun other member => sound.runTimes other (mem_of_mem_others member)
  listedTimes := sound.listedTimes
  rowTimes := by
    intro path time held
    cases cleared with
    | false => exact sound.rowTimes path time held
    | true =>
      have held := (timeOf_clearConditional ..).symm.trans held
      split at held
      · cases held
      · exact sound.rowTimes path time held
  recorded := sound.recorded
  guarded := by
    intro path edit uncaptured
    have before : journal.Uncaptured path edit :=
      uncaptured.mono rfl fun done member => .tail _ member
    have unreadHere := uncaptured.unread (run.entry.path, contents) (.head _)
    rcases sound.guarded path edit before with ⟨time, held, reads⟩
    apply Guarded.keep ⟨time, held, reads⟩
    · cases cleared with
      | false => rfl
      | true =>
        apply (timeOf_clearConditional ..).trans
        rw [if_neg]
        rintro ⟨here, matched⟩
        have same := Option.some.inj (held.symm.trans matched)
        have covers := reads (id, run) under here same.symm contents read
        exact absurd (unreadHere here) (Nat.not_lt.mpr covers)
    · exact fun other member _ _ => mem_of_mem_others member

theorem Sound.failed (id : Nat) (path : SyncPath) (error : String) :
    Sound { journal with
      table := markDirtyPathAttempt journal.table path error, runs := journal.others id } where
  runTimes := fun other member => sound.runTimes other (mem_of_mem_others member)
  listedTimes := sound.listedTimes
  rowTimes := by
    intro other time held
    rw [timeOf_markDirtyPathAttempt] at held
    exact sound.rowTimes other time held
  recorded := sound.recorded
  guarded := by
    intro other edit uncaptured
    apply (sound.guarded other edit (uncaptured.mono rfl fun _ member => member)).keep
    · exact timeOf_markDirtyPathAttempt ..
    · exact fun run member _ _ => mem_of_mem_others member

theorem Sound.retryLater {run : FlushRun} (now : Int)
    (found : journal.find id = some run)
    (safe : putsBackSafely journal (.finish id .retryLater now) = true) :
    Sound { journal with
      table := journalUncaptured journal.table now run.entry.path run.entry.observedAtUnixNanos
      runs := journal.others id } where
  runTimes := fun other member => sound.runTimes other (mem_of_mem_others member)
  listedTimes := sound.listedTimes
  rowTimes := by
    intro path time held
    rw [timeOf_journalUncaptured] at held
    split at held
    · cases held
      exact sound.runTimes _ (mem_of_find found)
    · exact sound.rowTimes path time held
  recorded := sound.recorded
  guarded := by
    intro path edit uncaptured
    have before : journal.Uncaptured path edit := uncaptured.mono rfl fun _ member => member
    apply (sound.guarded path edit before).record
      (timeOf_journalUncaptured journal.table now run.entry)
      fun other member _ => mem_of_mem_others member
    intro replaces
    rw [putsBackSafely, found, all_some, replaces, Bool.not_true, Bool.false_or] at safe
    exact safe

theorem Sound.crash : Sound { journal with runs := [], listed := [] } where
  runTimes := fun _ member => by cases member
  listedTimes := fun _ member => by cases member
  rowTimes := sound.rowTimes
  recorded := sound.recorded
  guarded := by
    intro path edit uncaptured
    apply (sound.guarded path edit (uncaptured.mono rfl fun _ member => member)).keep
    · rfl
    · intro run member
      cases member

theorem Sound.step {event : FlushEvent}
    (safe : putsBackSafely journal event = true) (stepped : journal.step event = some next) :
    next.Sound := by
  cases event with
  | edit path =>
    cases stepped
    exact sound.edit path
  | observe id entry now =>
    rw [Journal.step] at stepped
    split at stepped
    · rename_i allowed
      cases stepped
      exact sound.observe id now allowed.2
    · cases stepped
  | list =>
    cases stepped
    exact sound.list
  | replay id entry now =>
    rw [Journal.step] at stepped
    split at stepped
    · rename_i allowed
      cases stepped
      exact sound.replay id now allowed.2 safe
    · cases stepped
  | read id =>
    rcases map_eq_some_iff.mp stepped with ⟨run, found, rfl⟩
    exact sound.read id
  | finish id outcome now =>
    rcases bind_eq_some_iff.mp stepped with ⟨run, found, finished⟩
    cases outcome with
    | captured cleared =>
      rcases map_eq_some_iff.mp finished with ⟨contents, read, rfl⟩
      exact sound.captured (mem_of_find found) read cleared
    | failed error =>
      cases finished
      exact sound.failed id run.entry.path error
    | retryLater =>
      cases finished
      exact sound.retryLater now found safe
  | crash =>
    cases stepped
    exact sound.crash

end

theorem sound_empty : empty.Sound where
  runTimes := fun _ member => by cases member
  listedTimes := fun _ member => by cases member
  rowTimes := by
    intro path time held
    rw [timeOf, empty, ExtTreeMap.getElem?_empty] at held
    cases held
  recorded := fun _ => le_rfl
  guarded := fun _ _ uncaptured =>
    absurd (uncaptured.real.trans uncaptured.recorded) (Nat.not_succ_le_zero 0)

/-- An edit whose event was recorded stays journaled until a flush that read it has finished, in
every run that never puts a used time back over another one while a flush with it has read. -/
theorem uncaptured_edit_journaled {events : List FlushEvent} {last : Journal}
    (safe : Along Journal.step (fun journal event => putsBackSafely journal event = true) empty
      events)
    (ran : Machine.run Journal.step empty events = some last) (path : SyncPath) (edit : Nat)
    (uncaptured : last.Uncaptured path edit) : path ∈ last.table := by
  have sound : last.Sound := invariant_run
    (fun _ _ _ sound safe stepped => Sound.step sound safe stepped) sound_empty safe ran
  rcases sound.guarded path edit uncaptured with ⟨time, held, -⟩
  rcases Option.map_eq_some_iff.mp held with ⟨row, stored, -⟩
  exact ExtTreeMap.mem_iff_isSome_getElem?.mpr (Option.isSome_of_eq_some stored)

/-! ## Two runs -/

def fileChanged (observedAtUnixNanos : Int) : DirtyPath :=
  ⟨"a", .createdOrModified, observedAtUnixNanos⟩

/-- A file is edited and flushed; the row is listed, and before the flush ends the file is edited
again and that edit's event recorded. Then the listed row is replayed, and the first flush ends. -/
def replayedOver : List FlushEvent :=
  [.edit "a", .observe 1 (fileChanged 10) 0, .read 1, .list, .edit "a",
    .observe 2 (fileChanged 20) 0, .replay 3 (fileChanged 10) 0, .finish 1 (.captured true) 0]

/-- The row of the second edit is gone, and no flush has read that edit. -/
theorem replay_forgets_edit : ¬ ∀ (events : List FlushEvent) (last : Journal),
      Machine.run Journal.step empty events = some last →
      ∀ path edit, last.Uncaptured path edit → path ∈ last.table := by
  intro journaled
  have facts : ((Machine.run Journal.step empty replayedOver).map fun last =>
      (decide ("a" ∈ last.table), last.recorded "a", last.finished)) =
      some (false, 2, [("a", 1)]) := by
    decide
  rcases Option.map_eq_some_iff.mp facts with ⟨last, ran, values⟩
  rw [Prod.mk.injEq, Prod.mk.injEq, decide_eq_false_iff_not] at values
  apply values.1
  apply journaled replayedOver last ran "a" 2
  refine ⟨by decide, values.2.1.ge, fun done member _ => ?_⟩
  rw [values.2.2] at member
  rw [List.mem_singleton.mp member]
  exact Nat.lt_succ_self 1

/-- The same, where the first flush ends before the listed row is replayed. -/
def replayedAfter : List FlushEvent :=
  [.edit "a", .observe 1 (fileChanged 10) 0, .read 1, .list, .edit "a",
    .observe 2 (fileChanged 20) 0, .finish 1 (.captured true) 0, .replay 3 (fileChanged 10) 0]

theorem second_edit_journaled : ∃ last, Machine.run Journal.step empty replayedAfter = some last ∧
      last.Uncaptured "a" 2 ∧ "a" ∈ last.table := by
  have safe : Along Journal.step (fun journal event => putsBackSafely journal event = true) empty
      replayedAfter := by
    decide
  have facts : ((Machine.run Journal.step empty replayedAfter).map fun last =>
      (last.recorded "a", last.finished)) = some (2, [("a", 1)]) := by
    decide
  rcases Option.map_eq_some_iff.mp facts with ⟨last, ran, values⟩
  rw [Prod.mk.injEq] at values
  have uncaptured : last.Uncaptured "a" 2 := by
    refine ⟨by decide, values.1.ge, fun done member _ => ?_⟩
    rw [values.2] at member
    rw [List.mem_singleton.mp member]
    exact Nat.lt_succ_self 1
  exact ⟨last, ran, uncaptured, uncaptured_edit_journaled safe ran "a" 2 uncaptured⟩

end Journal

end Yadorilink.DirtyJournal

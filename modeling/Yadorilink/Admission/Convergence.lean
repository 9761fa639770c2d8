import Yadorilink.Admission.Runs

/-! What holds after any sequence of admissions to an empty group, whatever
the deltas, their authors and their order: how the tables of the store agree
with each other, and that the heads depend only on which deltas were
installed. -/

namespace Yadorilink

open Std NativeDelta Option

/-- How the tables of a store agree. -/
structure AdmissionInvariant (crypto : Crypto) (store : Store) : Prop where
  contextIsFrontier : ∀ author : AuthorId, store.context[author]? =
    (store.frontier[author]?).map NativeAuthorFrontierEntry.seq
  logRange : ∀ (author : AuthorId) (seq : Nat),
    (∃ hash, store.log[(⟨author, seq⟩ : Dot)]? = some hash) ↔
      1 ≤ seq ∧ seq ≤ (store.context[author]?).getD 0
  /-- Each entry is the hash of a delta that names the entry before it. -/
  logChain : ∀ (dot : Dot) (hash : DeltaHash), store.log[dot]? = some hash → ∃ delta : NativeDelta,
    store.bodies[dot]? = some ⟨hash, delta⟩ ∧ delta.dot = dot ∧ delta.deltaHash crypto = hash ∧
      delta.prev = if dot.seq = 1 then none else store.log[(⟨dot.author, dot.seq - 1⟩ : Dot)]?
  tipLogged : ∀ (author : AuthorId) (entry : NativeAuthorFrontierEntry),
    store.frontier[author]? = some entry → store.log[(⟨author, entry.seq⟩ : Dot)]? = some entry.tip
  headObserved : ∀ (path : SyncPath) (dot : Dot) (payload : HeadPayload),
    store.heads[(⟨path, dot⟩ : HeadKey)]? = some payload →
      ∃ seq, store.context[dot.author]? = some seq ∧ dot.seq ≤ seq
  headLogged : ∀ (path : SyncPath) (dot : Dot) (payload : HeadPayload),
    store.heads[(⟨path, dot⟩ : HeadKey)]? = some payload → store.log[dot]? = some payload.provenance
  ownHeads : ∀ (path : SyncPath) (author : AuthorId),
    ((store.loadState.dotsAt path).countP fun dot => dot.author = author) ≤ maxSelfHeads

section Sound

variable {crypto : Crypto} {store : Store} (sound : store.Sound crypto)

include sound

theorem Store.Sound.positionSeq_eq (author : AuthorId) :
    positionSeq store.frontier[author]? = (store.context[author]?).getD 0 := by
  rw [sound.context, positionSeq]

theorem Store.Sound.admissionInvariant : AdmissionInvariant crypto store where
  contextIsFrontier := sound.context
  logRange := fun author seq => by
    rw [← sound.positionSeq_eq]
    exact sound.logged ⟨author, seq⟩
  logChain := fun dot hash logged => by
    rcases sound.body dot hash logged with ⟨delta, member, rfl, rfl⟩
    exact ⟨delta, member, rfl, rfl, sound.prev delta member⟩
  tipLogged := sound.tip
  headObserved := fun _ dot _ live => (observedBy_iff _ dot).mp (sound.observed_of_live live).2
  headLogged := fun path dot payload live => by
    rcases sound.installed_of_live live with ⟨delta, member, rfl, provenance, _⟩
    rw [← provenance]
    exact sound.logged_of_installed member
  ownHeads := sound.ownBound

end Sound

/-! ## Every run -/

section Runs

variable (crypto : Crypto) (groupId : FolderGroupId) (calls : List AdmissionCall)

theorem soundInvariant :
    AttemptInvariant crypto groupId (fun delta => delta.decodable = true) (Store.Sound crypto) :=
  .ofSound (fun _ decodes => decodes) (fun _ sound => sound) (fun _ sound => sound.held)
    fun _ _ _ _ _ _ sound decodes attempt => attempt.sound sound decodes

theorem loggedInvariant (dot : Dot) (hash : DeltaHash) :
    AttemptInvariant crypto groupId (fun delta => delta.decodable = true)
      (fun store => store.Sound crypto ∧ store.log[dot]? = some hash) :=
  .ofSound (fun _ decodes => decodes) (fun _ both => both.1) (fun _ both => both.1.held)
    fun _ _ _ _ _ _ both decodes attempt =>
      ⟨attempt.sound both.1 decodes, attempt.log_mono both.2⟩

theorem sound_admitAll (decodes : ∀ call, call ∈ calls → call.delta.decodable = true) :
    (admitAll crypto groupId Store.empty calls).Sound crypto :=
  (soundInvariant crypto groupId).admitAll (Store.Sound.empty crypto) decodes

/-- After any admissions the tables agree, and no later admission changes what
the log holds. -/
theorem admissions_keep_invariant
    (decodes : ∀ call, call ∈ calls → call.delta.decodable = true) (later : List AdmissionCall)
    (laterDecodes : ∀ call, call ∈ later → call.delta.decodable = true) :
    AdmissionInvariant crypto (admitAll crypto groupId Store.empty calls) ∧
      ∀ (dot : Dot) (hash : DeltaHash),
        (admitAll crypto groupId Store.empty calls).log[dot]? = some hash →
          (admitAll crypto groupId Store.empty (calls ++ later)).log[dot]? = some hash := by
  have sound := sound_admitAll crypto groupId calls decodes
  refine ⟨sound.admissionInvariant, ?_⟩
  intro dot hash logged
  rw [admitAll, List.foldl_append]
  exact ((loggedInvariant crypto groupId dot hash).admitAll ⟨sound, logged⟩ laterDecodes).2

/-- The deltas admitted in the order given, one second apart. -/
def sampleCalls (deltas : List NativeDelta) : List AdmissionCall :=
  deltas.zipIdx.map fun entry => ⟨entry.1, fun _ => some 5, entry.2⟩

theorem admissions_keep_invariant_reversed :
    (admitAll Crypto.sample "group" Store.empty (sampleCalls [sampleSecond, sampleFirst])).log.size = 2 ∧
    AdmissionInvariant Crypto.sample
      (admitAll Crypto.sample "group" Store.empty (sampleCalls [sampleSecond, sampleFirst])) :=
  ⟨by decide +kernel, (admissions_keep_invariant Crypto.sample "group"
    (sampleCalls [sampleSecond, sampleFirst]) (by decide) (sampleCalls [sampleFirst, sampleSecond])
    (by decide)).1⟩

end Runs

/-! ## The heads are those of the installed deltas -/

/-- The heads, the context and the frontier are functions of the set of
installed deltas, which are those the log names. -/
structure DeterminedByInstalled (crypto : Crypto) (store : Store) : Prop where
  logged : ∀ (dot : Dot) (hash : DeltaHash), store.log[dot]? = some hash ↔
    ∃ delta, delta ∈ store.installedDeltas crypto ∧ delta.dot = dot ∧ delta.deltaHash crypto = hash
  heads : ∀ (path : SyncPath) (dot : Dot) (payload : HeadPayload),
    store.heads[(⟨path, dot⟩ : HeadKey)]? = some payload ↔
      ∃ delta, delta ∈ store.installedDeltas crypto ∧ delta.dot = dot ∧
        delta.Puts path payload.version ∧ payload.provenance = delta.deltaHash crypto ∧
        ∀ other, other ∈ store.installedDeltas crypto →
          ¬other.Removes path ⟨dot, delta.deltaHash crypto⟩
  context : ∀ (author : AuthorId) (seq : Nat), store.context[author]? = some seq ↔
    ∃ delta, delta ∈ store.installedDeltas crypto ∧ delta.author = author ∧ delta.seq = seq ∧
      ∀ other, other ∈ store.installedDeltas crypto → other.author = author → other.seq ≤ seq
  frontier : ∀ (author : AuthorId) (entry : NativeAuthorFrontierEntry),
    store.frontier[author]? = some entry ↔
      ∃ delta, delta ∈ store.installedDeltas crypto ∧ delta.author = author ∧
        delta.seq = entry.seq ∧ delta.deltaHash crypto = entry.tip ∧
        ∀ other, other ∈ store.installedDeltas crypto → other.author = author →
          other.seq ≤ entry.seq

section Determined

variable {crypto : Crypto} {store : Store} (sound : store.Sound crypto)

include sound

theorem Store.Sound.logged_iff (dot : Dot) (hash : DeltaHash) : store.log[dot]? = some hash ↔
    ∃ delta, delta ∈ store.installedDeltas crypto ∧ delta.dot = dot ∧
      delta.deltaHash crypto = hash := by
  constructor
  · exact sound.body dot hash
  · rintro ⟨delta, member, sameDot, sameHash⟩
    rw [← sameDot, ← sameHash]
    exact sound.logged_of_installed member

theorem Store.Sound.frontier_iff (author : AuthorId) (entry : NativeAuthorFrontierEntry) :
    store.frontier[author]? = some entry ↔
      ∃ delta, delta ∈ store.installedDeltas crypto ∧ delta.author = author ∧
        delta.seq = entry.seq ∧ delta.deltaHash crypto = entry.tip ∧
        ∀ other, other ∈ store.installedDeltas crypto → other.author = author →
          other.seq ≤ entry.seq := by
  -- No installed delta lies beyond its author's position.
  have within : ∀ delta, delta ∈ store.installedDeltas crypto →
      1 ≤ delta.seq ∧ delta.seq ≤ positionSeq store.frontier[delta.author]? :=
    fun delta member => (sound.logged delta.dot).mp ⟨_, sound.logged_of_installed member⟩
  constructor
  · intro known
    rcases sound.body _ _ (sound.tip author entry known) with ⟨delta, member, sameDot, sameHash⟩
    refine ⟨delta, member, congrArg Dot.author sameDot, congrArg Dot.seq sameDot, sameHash, ?_⟩
    intro other otherMember sameAuthor
    have bound := (within other otherMember).2
    rw [sameAuthor, known] at bound
    exact bound
  · rintro ⟨delta, member, sameAuthor, sameSeq, sameHash, highest⟩
    have bounds := within delta member
    rw [sameAuthor] at bounds
    cases known : store.frontier[author]? with
    | none =>
      rw [known] at bounds
      simp only [positionSeq, map_none, getD_none] at bounds
      omega
    | some tip =>
      rw [known] at bounds
      simp only [positionSeq, map_some, getD_some] at bounds
      rcases sound.body _ _ (sound.tip author tip known) with
        ⟨last, lastMember, lastDot, lastHash⟩
      have lastSeq : last.seq = tip.seq := congrArg Dot.seq lastDot
      have notHigher := highest last lastMember (congrArg Dot.author lastDot)
      have same : tip.seq = entry.seq := by omega
      -- One log entry, so one hash.
      have lastLogged := sound.tip author tip known
      have deltaLogged := sound.logged_of_installed member
      rw [NativeDelta.dot, sameAuthor, sameSeq, ← same, lastLogged] at deltaLogged
      have sameTip : tip.tip = entry.tip := (Option.some.inj deltaLogged).trans sameHash
      cases tip
      cases entry
      simp_all

theorem Store.Sound.context_iff (author : AuthorId) (seq : Nat) :
    store.context[author]? = some seq ↔
      ∃ delta, delta ∈ store.installedDeltas crypto ∧ delta.author = author ∧ delta.seq = seq ∧
        ∀ other, other ∈ store.installedDeltas crypto → other.author = author →
          other.seq ≤ seq := by
  rw [sound.context, map_eq_some_iff]
  constructor
  · rintro ⟨entry, known, sameSeq⟩
    rcases (sound.frontier_iff author entry).mp known with
      ⟨delta, member, sameAuthor, seqIs, _, highest⟩
    exact ⟨delta, member, sameAuthor, seqIs.trans sameSeq, sameSeq ▸ highest⟩
  · rintro ⟨delta, member, sameAuthor, seqIs, highest⟩
    refine ⟨⟨seq, delta.deltaHash crypto⟩, ?_, rfl⟩
    exact (sound.frontier_iff author _).mpr ⟨delta, member, sameAuthor, seqIs, rfl, highest⟩

theorem Store.Sound.determined : DeterminedByInstalled crypto store where
  logged := sound.logged_iff
  heads := fun path dot payload => by
    rw [sound.live path dot payload]
    constructor
    · rintro ⟨delta, member, sameKey, puts, kept⟩
      have sameDot : delta.dot = dot := congrArg HeadRef.dot sameKey
      have sameHash : delta.deltaHash crypto = payload.provenance :=
        congrArg HeadRef.provenance sameKey
      refine ⟨delta, member, sameDot, puts, sameHash.symm, ?_⟩
      rw [sameHash]
      exact kept
    · rintro ⟨delta, member, sameDot, puts, sameHash, kept⟩
      rw [← sameHash] at kept
      exact ⟨delta, member, by rw [sameHash, ← sameDot]; rfl, puts, kept⟩
  context := sound.context_iff
  frontier := sound.frontier_iff

end Determined

/-! ## Convergence -/

/-- Two replicas read the same. -/
structure SameReplica (first second : Store) : Prop where
  heads : first.heads = second.heads
  context : first.context = second.context
  frontier : first.frontier = second.frontier

/-- Every delta installed in `first` is installed in `second`, the signature
aside. -/
def Covered (crypto : Crypto) (first second : Store) : Prop :=
  ∀ delta, delta ∈ first.installedDeltas crypto →
    ∃ other, other ∈ second.installedDeltas crypto ∧ other.unsigned = delta.unsigned

section Covered

variable {crypto : Crypto} {first second : Store}
  (determinedFirst : DeterminedByInstalled crypto first)
  (determinedSecond : DeterminedByInstalled crypto second)
  (forth : Covered crypto first second) (back : Covered crypto second first)

include determinedFirst determinedSecond forth back

private theorem heads_of_covered {key : HeadKey} {payload : HeadPayload}
    (live : first.heads[key]? = some payload) : second.heads[key]? = some payload := by
  rcases (determinedFirst.heads key.path key.dot payload).mp live with
    ⟨delta, member, sameDot, puts, provenance, kept⟩
  rcases forth delta member with ⟨other, otherMember, same⟩
  rcases eq_of_unsigned same with ⟨otherDot, sameOps, sameHash⟩
  apply (determinedSecond.heads key.path key.dot payload).mpr
  refine ⟨other, otherMember, otherDot.trans sameDot, ?_,
    provenance.trans (sameHash crypto).symm, ?_⟩
  · rw [NativeDelta.Puts, sameOps]
    exact puts
  · intro remover removerMember removes
    rcases back remover removerMember with ⟨original, originalMember, sameRemover⟩
    apply kept original originalMember
    rw [NativeDelta.Removes, (eq_of_unsigned sameRemover).2.1, ← sameHash crypto]
    exact removes

private theorem frontier_of_covered {author : AuthorId} {entry : NativeAuthorFrontierEntry}
    (known : first.frontier[author]? = some entry) : second.frontier[author]? = some entry := by
  rcases (determinedFirst.frontier author entry).mp known with
    ⟨delta, member, sameAuthor, sameSeq, sameTip, highest⟩
  rcases forth delta member with ⟨other, otherMember, same⟩
  rcases eq_of_unsigned same with ⟨otherDot, _, sameHash⟩
  apply (determinedSecond.frontier author entry).mpr
  refine ⟨other, otherMember, (congrArg Dot.author otherDot).trans sameAuthor,
    (congrArg Dot.seq otherDot).trans sameSeq, (sameHash crypto).trans sameTip, ?_⟩
  intro later laterMember laterAuthor
  rcases back later laterMember with ⟨original, originalMember, sameLater⟩
  have laterDot := (eq_of_unsigned sameLater).1
  have sameLaterSeq : original.seq = later.seq := congrArg Dot.seq laterDot
  rw [← sameLaterSeq]
  exact highest original originalMember ((congrArg Dot.author laterDot).trans laterAuthor)

end Covered

theorem sameReplica_of_covered {crypto : Crypto} {first second : Store}
    (soundFirst : first.Sound crypto) (soundSecond : second.Sound crypto)
    (forth : Covered crypto first second) (back : Covered crypto second first) :
    SameReplica first second := by
  have determinedFirst := soundFirst.determined
  have determinedSecond := soundSecond.determined
  have sameFrontier : ∀ author : AuthorId, first.frontier[author]? = second.frontier[author]? :=
    fun author => Option.ext fun entry =>
      ⟨frontier_of_covered determinedFirst determinedSecond forth back,
        frontier_of_covered determinedSecond determinedFirst back forth⟩
  refine ⟨?_, ?_, ExtTreeMap.ext_getElem? fun author => sameFrontier author⟩
  · apply ExtTreeMap.ext_getElem?
    intro key
    apply Option.ext
    intro payload
    exact ⟨heads_of_covered determinedFirst determinedSecond forth back,
      heads_of_covered determinedSecond determinedFirst back forth⟩
  · apply ExtTreeMap.ext_getElem?
    intro author
    rw [soundFirst.context, soundSecond.context, sameFrontier]

theorem covered_of_log {crypto : Crypto} {first second : Store} {deltas : List NativeDelta}
    (soundFirst : first.Sound crypto) (soundSecond : second.Sound crypto)
    (fromFirst : ∀ delta, delta ∈ first.installedDeltas crypto → delta ∈ deltas)
    (fromSecond : ∀ delta, delta ∈ second.installedDeltas crypto → delta ∈ deltas)
    (collisionFree : HashCollisionFree crypto deltas) (sameLog : first.log = second.log) :
    Covered crypto first second := by
  intro delta member
  have logged := soundFirst.logged_of_installed member
  rw [sameLog] at logged
  rcases soundSecond.body _ _ logged with ⟨other, otherMember, _, sameHash⟩
  exact ⟨other, otherMember, collisionFree other (fromSecond other otherMember) delta
    (fromFirst delta member) sameHash⟩

section Runs

variable (crypto : Crypto) (groupId : FolderGroupId)

theorem deliveredInvariant (deltas : List NativeDelta) :
    AttemptInvariant crypto groupId (fun delta => delta.decodable = true ∧ delta ∈ deltas)
      (fun store => store.Sound crypto ∧ (∀ row, row ∈ store.holds → row.delta ∈ deltas) ∧
        ∀ delta, delta ∈ store.installedDeltas crypto → delta ∈ deltas) := by
  refine .ofSound (fun _ isAllowed => isAllowed.1) (fun _ facts => facts.1)
    (fun _ facts row member => ⟨facts.1.held row member, facts.2.1 row member⟩) ?_
  intro _ _ _ _ _ _ facts isAllowed attempt
  refine ⟨attempt.sound facts.1 isAllowed.1, ?_, ?_⟩
  · intro row member
    rcases attempt.holdsAfter.delta_eq member with same | ⟨old, inHolds, same⟩
    · exact same ▸ isAllowed.2
    · exact same ▸ facts.2.1 old inHolds
  · intro other member
    rcases attempt.installed_of_mem facts.1 member with same | old
    · exact same ▸ isAllowed.2
    · exact facts.2.2 other old

theorem installed_delivered {calls : List AdmissionCall} {deltas : List NativeDelta}
    (decodes : ∀ call, call ∈ calls → call.delta.decodable = true)
    (delivered : ∀ call, call ∈ calls → call.delta ∈ deltas) (delta : NativeDelta)
    (member : delta ∈ (admitAll crypto groupId Store.empty calls).installedDeltas crypto) :
    delta ∈ deltas := by
  have start : ∀ other : NativeDelta, other ∈ Store.empty.installedDeltas crypto →
      other ∈ deltas := by
    intro other absent
    simp [Store.mem_installedDeltas, Store.empty] at absent
  have facts := (deliveredInvariant crypto groupId deltas).admitAll
    ⟨Store.Sound.empty crypto, fun row absent => by simp [Store.empty] at absent, start⟩
    (fun call inCalls => ⟨decodes call inCalls, delivered call inCalls⟩)
  exact facts.2.2 delta member

/-- After any admissions the replica is determined by the deltas it installed,
so that two replicas that installed the same ones read the same. -/
theorem admissions_converge (calls others : List AdmissionCall)
    (decodes : ∀ call, call ∈ calls ++ others → call.delta.decodable = true)
    (collisionFree : HashCollisionFree crypto ((calls ++ others).map AdmissionCall.delta)) :
    DeterminedByInstalled crypto (admitAll crypto groupId Store.empty calls) ∧
    ((admitAll crypto groupId Store.empty calls).installedDeltas crypto =
        (admitAll crypto groupId Store.empty others).installedDeltas crypto →
      SameReplica (admitAll crypto groupId Store.empty calls)
        (admitAll crypto groupId Store.empty others)) ∧
    ((admitAll crypto groupId Store.empty calls).log =
        (admitAll crypto groupId Store.empty others).log →
      SameReplica (admitAll crypto groupId Store.empty calls)
        (admitAll crypto groupId Store.empty others)) := by
  have decodesCalls : ∀ call, call ∈ calls → call.delta.decodable = true :=
    fun call member => decodes call (List.mem_append_left others member)
  have decodesOthers : ∀ call, call ∈ others → call.delta.decodable = true :=
    fun call member => decodes call (List.mem_append_right calls member)
  have sound := sound_admitAll crypto groupId calls decodesCalls
  have soundOther := sound_admitAll crypto groupId others decodesOthers
  refine ⟨sound.determined, ?_, ?_⟩
  · intro sameInstalled
    apply sameReplica_of_covered sound soundOther
    · intro delta member
      exact ⟨delta, sameInstalled ▸ member, rfl⟩
    · intro delta member
      exact ⟨delta, sameInstalled ▸ member, rfl⟩
  · intro sameLog
    have fromCalls := installed_delivered crypto groupId decodesCalls fun call member =>
      List.mem_map_of_mem (List.mem_append_left others member)
    have fromOthers := installed_delivered crypto groupId decodesOthers fun call member =>
      List.mem_map_of_mem (List.mem_append_right calls member)
    exact sameReplica_of_covered sound soundOther
      (covered_of_log sound soundOther fromCalls fromOthers collisionFree sameLog)
      (covered_of_log soundOther sound fromOthers fromCalls collisionFree sameLog.symm)

theorem admissions_converge_reversed :
    SameReplica (admitAll Crypto.sample "group" Store.empty (sampleCalls [sampleFirst, sampleSecond]))
      (admitAll Crypto.sample "group" Store.empty (sampleCalls [sampleSecond, sampleFirst])) :=
  (admissions_converge Crypto.sample "group" (sampleCalls [sampleFirst, sampleSecond])
    (sampleCalls [sampleSecond, sampleFirst]) (by decide)
    (by unfold HashCollisionFree; decide +kernel)).2.2 (by decide +kernel)

end Runs

end Yadorilink

import Yadorilink.Foundation.ObservedRemove
import Yadorilink.Store.Installed

/-! The invariant of a store that only ever admitted deltas. The tables are
written by different parts of the install, so what one of them says is stated
against the others: the context repeats the frontier, the log holds an
unbroken chain up to it with one body for each entry, and the live heads are
those the installed deltas put and none of them removes. -/

namespace Yadorilink

open Std OrderedMap Option NativeDelta

/-- What every store keeps, whatever is closed or frozen: nothing is logged
beyond its author's position, and each hold is of a delta that decoded, one
for each dot. -/
structure Store.Consistent (store : Store) : Prop where
  logged : ∀ (dot : Dot) hash, store.log[dot]? = some hash →
    dot.seq ≤ positionSeq store.frontier[dot.author]?
  held : ∀ row, row ∈ store.holds → row.delta.decodable = true
  heldDistinct : (store.holds.map fun row => row.delta.dot).Nodup

theorem Store.Consistent.unlogged_of_chain {store : Store} (consistent : store.Consistent)
    {delta : NativeDelta}
    (chain : checkChainAdvance store.frontier[delta.author]? delta.prev delta.seq = .ok ()) :
    store.log[delta.dot]? = none := by
  cases logged : store.log[delta.dot]? with
  | none => rfl
  | some hash =>
    have within := consistent.logged delta.dot hash logged
    have next := (checkChainAdvance_eq_ok_iff.mp chain).1
    simp only [dot] at within
    omega

theorem Store.Consistent.ofRecords {crypto : Crypto} {delta : NativeDelta} {store after : Store}
    (consistent : store.Consistent)
    (chain : checkChainAdvance store.frontier[delta.author]? delta.prev delta.seq = .ok ())
    (holds : after.holds = store.holds)
    (frontier : after.frontier =
      store.frontier.insert delta.author ⟨delta.seq, delta.deltaHash crypto⟩)
    (log : after.log = store.log.insert delta.dot (delta.deltaHash crypto)) :
    after.Consistent := by
  refine ⟨?_, holds ▸ consistent.held, holds ▸ consistent.heldDistinct⟩
  intro dot hash logged
  have next := (checkChainAdvance_eq_ok_iff.mp chain).1
  rw [log, getElem?_insert_eq] at logged
  rw [frontier, getElem?_insert_eq]
  by_cases same : delta.dot = dot
  · rw [← same]
    simp [NativeDelta.dot, positionSeq]
  · rw [if_neg same] at logged
    have before := consistent.logged dot hash logged
    split
    · rename_i sameAuthor
      rw [← sameAuthor] at before
      simp only [positionSeq, map_some, getD_some]
      simp only [positionSeq] at before next
      omega
    · exact before

/-- Where the context repeats the frontier, a delta that continues its author's
chain is beyond what is observed. -/
theorem Store.unobserved_of_chain {store : Store}
    (context : ∀ author : AuthorId, store.context[author]? =
      (store.frontier[author]?).map NativeAuthorFrontierEntry.seq) {delta : NativeDelta}
    (chain : checkChainAdvance store.frontier[delta.author]? delta.prev delta.seq = .ok ()) :
    observedBy store.context delta.dot ≠ true := by
  intro observed
  have next := (checkChainAdvance_eq_ok_iff.mp chain).1
  rcases (observedBy_iff _ _).mp observed with ⟨seq, known, within⟩
  rw [context] at known
  simp only [dot] at known within
  cases position : store.frontier[delta.author]? with
  | none =>
    rw [position] at known
    cases known
  | some entry =>
    rw [position] at known next
    cases known
    simp only [positionSeq, map_some, getD_some] at next
    omega

/-- What deltas do to the heads. A head is known by its dot and by the hash of
the delta that landed it, which is what a removal names. -/
def deltaEffects (crypto : Crypto) :
    ObservedRemove.Effects NativeDelta SyncPath HeadRef VersionHash where
  key := fun delta => ⟨delta.dot, delta.deltaHash crypto⟩
  puts := NativeDelta.Puts
  removes := NativeDelta.Removes

/-- The deltas whose bodies the store recorded when it installed them. -/
def Store.installedDeltas (crypto : Crypto) (store : Store) : Set NativeDelta :=
  {delta | store.bodies[delta.dot]? = some ⟨delta.deltaHash crypto, delta⟩}

theorem Store.mem_installedDeltas {crypto : Crypto} {store : Store} {delta : NativeDelta} :
    delta ∈ store.installedDeltas crypto ↔
      store.bodies[delta.dot]? = some ⟨delta.deltaHash crypto, delta⟩ := Iff.rfl

structure Store.Sound (crypto : Crypto) (store : Store) : Prop where
  quiet : store.Quiet
  context : ∀ author : AuthorId, store.context[author]? =
    (store.frontier[author]?).map NativeAuthorFrontierEntry.seq
  logged : ∀ dot : Dot, (∃ hash, store.log[dot]? = some hash) ↔
    1 ≤ dot.seq ∧ dot.seq ≤ positionSeq store.frontier[dot.author]?
  tip : ∀ (author : AuthorId) entry, store.frontier[author]? = some entry →
    store.log[(⟨author, entry.seq⟩ : Dot)]? = some entry.tip
  body : ∀ (dot : Dot) hash, store.log[dot]? = some hash → ∃ delta,
    delta ∈ store.installedDeltas crypto ∧ delta.dot = dot ∧ delta.deltaHash crypto = hash
  bodyLogged : ∀ (dot : Dot) row, store.bodies[dot]? = some row →
    row.delta.dot = dot ∧ row.deltaHash = row.delta.deltaHash crypto ∧
      store.log[dot]? = some row.deltaHash
  decodes : ∀ delta, delta ∈ store.installedDeltas crypto → delta.decodable = true
  prev : ∀ delta, delta ∈ store.installedDeltas crypto →
    delta.prev = if delta.seq = 1 then none
      else store.log[(⟨delta.author, delta.seq - 1⟩ : Dot)]?
  named : ∀ delta, delta ∈ store.installedDeltas crypto → ∀ dot, dot ∈ delta.namedDots →
    observedBy store.context dot = true
  live : ∀ path dot payload, store.heads[(⟨path, dot⟩ : HeadKey)]? = some payload ↔
    ObservedRemove.Live (deltaEffects crypto) (store.installedDeltas crypto) path
      ⟨dot, payload.provenance⟩ payload.version
  ownBound : ∀ path author,
    ((store.loadState.dotsAt path).countP fun dot => dot.author = author) ≤ maxSelfHeads
  held : ∀ row, row ∈ store.holds → row.delta.decodable = true
  heldDistinct : (store.holds.map fun row => row.delta.dot).Nodup

variable {dot : Dot}

namespace Store.Sound

variable {crypto : Crypto} {store : Store}

/-! ## The empty group -/

theorem empty (crypto : Crypto) : Store.Sound crypto Store.empty where
  quiet := ⟨rfl, rfl, rfl⟩
  context := fun author => by simp [Store.empty]
  logged := fun dot => by
    simp only [Store.empty, ExtTreeMap.getElem?_empty, positionSeq, map_none,
      getD_none, reduceCtorEq, exists_false, false_iff]
    omega
  tip := fun author entry known => by simp [Store.empty] at known
  body := fun dot hash known => by simp [Store.empty] at known
  bodyLogged := fun dot row known => by simp [Store.empty] at known
  decodes := fun delta member => by
    simp [Store.mem_installedDeltas, Store.empty] at member
  prev := fun delta member => by
    simp [Store.mem_installedDeltas, Store.empty] at member
  named := fun delta member => by
    simp [Store.mem_installedDeltas, Store.empty] at member
  live := fun path dot payload => by
    simp [Store.mem_installedDeltas, Store.empty, ObservedRemove.Live]
  ownBound := fun path author => by
    have bound := NativeState.valid_new.ownBound path author
    exact bound
  held := fun row member => by simp [Store.empty] at member
  heldDistinct := List.nodup_nil

/-! ## Reading the invariant -/

variable (sound : store.Sound crypto)

include sound

theorem observed_iff (dot : Dot) : observedBy store.context dot = true ↔
      ∃ entry, store.frontier[dot.author]? = some entry ∧ dot.seq ≤ entry.seq := by
  rw [observedBy_iff, sound.context]
  cases store.frontier[dot.author]? with
  | none => simp
  | some entry => simp

theorem observed_le (observed : observedBy store.context dot = true) :
    dot.seq ≤ positionSeq store.frontier[dot.author]? := by
  rcases (sound.observed_iff dot).mp observed with ⟨entry, known, within⟩
  rw [known]
  exact within

theorem unobserved_of_chain {delta : NativeDelta}
    (chain : checkChainAdvance store.frontier[delta.author]? delta.prev delta.seq = .ok ()) :
    observedBy store.context delta.dot ≠ true :=
  Store.unobserved_of_chain sound.context chain

theorem consistent : store.Consistent :=
  ⟨fun dot hash logged => ((sound.logged dot).mp ⟨hash, logged⟩).2, sound.held, sound.heldDistinct⟩

theorem noBody_of_unlogged (unlogged : store.log[dot]? = none) : store.bodies[dot]? = none := by
  cases recorded : store.bodies[dot]? with
  | none => rfl
  | some row =>
    have logged := (sound.bodyLogged dot row recorded).2.2
    rw [unlogged] at logged
    cases logged

theorem logged_of_installed {delta : NativeDelta} (member : delta ∈ store.installedDeltas crypto) :
    store.log[delta.dot]? = some (delta.deltaHash crypto) :=
  (sound.bodyLogged delta.dot _ member).2.2

theorem observed_of_logged {hash : DeltaHash} (logged : store.log[dot]? = some hash) :
    1 ≤ dot.seq ∧ observedBy store.context dot = true := by
  rcases (sound.logged dot).mp ⟨hash, logged⟩ with ⟨positive, within⟩
  refine ⟨positive, (sound.observed_iff dot).mpr ?_⟩
  cases known : store.frontier[dot.author]? with
  | none =>
    rw [known] at within
    simp only [positionSeq, map_none, getD_none] at within
    omega
  | some entry =>
    rw [known] at within
    exact ⟨entry, rfl, within⟩

theorem observed_of_installed {delta : NativeDelta}
    (member : delta ∈ store.installedDeltas crypto) :
    1 ≤ delta.dot.seq ∧ observedBy store.context delta.dot = true :=
  sound.observed_of_logged (sound.logged_of_installed member)

theorem installed_of_live {path : SyncPath} {payload : HeadPayload}
    (live : store.heads[(⟨path, dot⟩ : HeadKey)]? = some payload) :
    ∃ delta, delta ∈ store.installedDeltas crypto ∧ delta.dot = dot ∧
      delta.deltaHash crypto = payload.provenance ∧ delta.Puts path payload.version := by
  rcases (sound.live path dot payload).mp live with ⟨delta, member, sameKey, puts, _⟩
  exact ⟨delta, member, congrArg HeadRef.dot sameKey, congrArg HeadRef.provenance sameKey, puts⟩

theorem observed_of_live {path : SyncPath} {payload : HeadPayload}
    (live : store.heads[(⟨path, dot⟩ : HeadKey)]? = some payload) :
    1 ≤ dot.seq ∧ observedBy store.context dot = true := by
  rcases sound.installed_of_live live with ⟨delta, member, rfl, _⟩
  exact sound.observed_of_installed member

end Store.Sound

/-! ## Installing keeps the invariant -/

namespace Installs

variable {crypto : Crypto} {delta : NativeDelta} {before after : Store}
  (installs : Installs crypto delta before after)

include installs

theorem context_eq : after.context = before.context.insert delta.author delta.seq := by
  rcases installs.written with ⟨heads, closed, rfl, _⟩
  rfl

theorem frontier_eq :
    after.frontier = before.frontier.insert delta.author ⟨delta.seq, delta.deltaHash crypto⟩ := by
  rcases installs.written with ⟨heads, closed, rfl, _⟩
  rfl

theorem log_eq : after.log = before.log.insert delta.dot (delta.deltaHash crypto) := by
  rcases installs.written with ⟨heads, closed, rfl, _⟩
  rfl

theorem holds_eq : after.holds = before.holds := by
  rcases installs.written with ⟨heads, closed, rfl, _⟩
  rfl

theorem pending_eq : after.pending = before.pending := by
  rcases installs.written with ⟨heads, closed, rfl, _⟩
  rfl

theorem quiet (quiet : before.Quiet) : after.Quiet := by
  rcases installs.written with ⟨heads, closed, rfl, _, unclosed⟩
  exact ⟨quiet.closures, (unclosed (quiet.effectiveClosedCutoff _)).trans quiet.closed,
    quiet.journal⟩

theorem headsAfter : HeadsAfter crypto delta before.heads after.heads := by
  rcases installs.written with ⟨heads, closed, rfl, headsAfter, _⟩
  exact headsAfter

theorem seq_eq : delta.seq = positionSeq before.frontier[delta.author]? + 1 :=
  (checkChainAdvance_eq_ok_iff.mp installs.chain).1

theorem positionSeq_eq (author : AuthorId) : positionSeq after.frontier[author]? =
      if delta.author = author then delta.seq else positionSeq before.frontier[author]? := by
  rw [installs.frontier_eq, getElem?_insert_eq]
  split
  · rfl
  · rfl

theorem observedBy_mono (sound : before.Sound crypto)
    (observed : observedBy before.context dot = true) : observedBy after.context dot = true := by
  have within := sound.observed_le observed
  rw [observedBy_iff] at observed ⊢
  rw [installs.context_eq, getElem?_insert_eq]
  by_cases same : delta.author = dot.author
  · have next := installs.seq_eq
    rw [← same] at within
    exact ⟨delta.seq, if_pos same, by omega⟩
  · rw [if_neg same]
    exact observed

theorem log_mono {hash : DeltaHash} (logged : before.log[dot]? = some hash) :
    after.log[dot]? = some hash := by
  rw [installs.log_eq, getElem?_insert_eq]
  have different : delta.dot ≠ dot := by
    intro same
    have unlogged := installs.unlogged
    rw [same, logged] at unlogged
    cases unlogged
  rw [if_neg different]
  exact logged

theorem dotsAt_untouched {path : SyncPath} (untouched : ∀ op, op ∈ delta.ops → op.path ≠ path) :
    after.loadState.dotsAt path = before.loadState.dotsAt path := by
  have noPut : ∀ version, ¬delta.Puts path version :=
    fun version ⟨op, member, samePath, _⟩ => untouched op member samePath
  have noRemoval : ∀ removal, ¬delta.Removes path removal :=
    fun removal ⟨op, member, samePath, _⟩ => untouched op member samePath
  have same : after.loadState.pathHeads path = before.loadState.pathHeads path := by
    apply ExtTreeMap.ext_getElem?
    intro dot
    have afterAt := after.headAt_loadState path dot
    have beforeAt := before.headAt_loadState path dot
    have kept : after.heads[(⟨path, dot⟩ : HeadKey)]? = before.heads[(⟨path, dot⟩ : HeadKey)]? := by
      apply Option.ext
      intro payload
      rw [installs.headsAfter path dot payload]
      simp [noPut, noRemoval]
    exact afterAt.trans (kept.trans beforeAt.symm)
  rw [NativeState.dotsAt, same]
  rfl

section Sound

variable (sound : before.Sound crypto)

include sound

theorem bodies_eq :
    after.bodies = before.bodies.insert delta.dot ⟨delta.deltaHash crypto, delta⟩ := by
  have absent : before.bodies.contains delta.dot = false := by
    rw [ExtTreeMap.contains_eq_isSome_getElem?, sound.noBody_of_unlogged installs.unlogged]
    rfl
  rcases installs.written with ⟨heads, closed, rfl, _⟩
  simp [Store.installed, Store.recorded, absent]

theorem installedDeltas_eq :
    after.installedDeltas crypto = insert delta (before.installedDeltas crypto) := by
  have noBody := sound.noBody_of_unlogged installs.unlogged
  ext other
  rw [Set.mem_insert_iff, Store.mem_installedDeltas, Store.mem_installedDeltas,
    installs.bodies_eq sound, getElem?_insert_eq]
  by_cases sameDot : delta.dot = other.dot
  · rw [if_pos sameDot, ← sameDot, noBody]
    constructor
    · intro same
      exact Or.inl (congrArg BodyRow.delta (Option.some.inj same)).symm
    · intro choice
      rcases choice with same | absent
      · rw [same]
      · cases absent
  · rw [if_neg sameDot]
    constructor
    · exact Or.inr
    · intro choice
      rcases choice with same | member
      · exact absurd (congrArg dot same).symm sameDot
      · exact member

theorem logged_iff (dot : Dot) : (∃ hash, after.log[dot]? = some hash) ↔
    1 ≤ dot.seq ∧ dot.seq ≤ positionSeq after.frontier[dot.author]? := by
  have known := sound.logged dot
  have next := installs.seq_eq
  rw [installs.positionSeq_eq, installs.log_eq, getElem?_insert_eq]
  by_cases same : delta.dot = dot
  · subst same
    simp only [dot, if_true]
    constructor
    · intro _
      omega
    · intro _
      exact ⟨delta.deltaHash crypto, rfl⟩
  · rw [if_neg same, known]
    by_cases sameAuthor : delta.author = dot.author
    · have otherSeq : dot.seq ≠ delta.seq := by
        intro sameSeq
        apply same
        cases dot
        simp_all [dot]
      rw [if_pos sameAuthor, ← sameAuthor]
      omega
    · rw [if_neg sameAuthor]

theorem prev_eq : delta.prev = if delta.seq = 1 then none
    else before.log[(⟨delta.author, delta.seq - 1⟩ : Dot)]? := by
  have prev := (checkChainAdvance_eq_ok_iff.mp installs.chain).2.1
  have next := installs.seq_eq
  rw [prev]
  cases known : before.frontier[delta.author]? with
  | none =>
    rw [known] at next
    have first : delta.seq = 1 := next
    rw [if_pos first]
    rfl
  | some entry =>
    have tip := sound.tip delta.author entry known
    have position : positionSeq before.frontier[delta.author]? = entry.seq := by
      rw [known]
      rfl
    have positive := ((sound.logged ⟨delta.author, entry.seq⟩).mp ⟨entry.tip, tip⟩).1
    have later : delta.seq ≠ 1 := by
      simp only at positive
      omega
    have previous : delta.seq - 1 = entry.seq := by omega
    rw [if_neg later, previous, tip]
    rfl

theorem unnamed (observed : ∀ dot, dot ∈ delta.namedDots → observedBy before.context dot = true)
    {other : NativeDelta} (member : other ∈ insert delta (before.installedDeltas crypto)) :
    delta.dot ∉ other.namedDots := by
  intro named
  apply sound.unobserved_of_chain installs.chain
  rcases Set.mem_insert_iff.mp member with same | old
  · exact observed delta.dot (same ▸ named)
  · exact sound.named other old delta.dot named

theorem live_iff (observed : ∀ dot, dot ∈ delta.namedDots → observedBy before.context dot = true)
    (path : SyncPath) (dot : Dot) (payload : HeadPayload) :
    after.heads[(⟨path, dot⟩ : HeadKey)]? = some payload ↔
      ObservedRemove.Live (deltaEffects crypto) (insert delta (before.installedDeltas crypto)) path
        ⟨dot, payload.provenance⟩ payload.version := by
  have unremoved : ∀ other, other ∈ insert delta (before.installedDeltas crypto) → ∀ path,
      ¬(deltaEffects crypto).removes other path ((deltaEffects crypto).key delta) :=
    fun other member path removes =>
      installs.unnamed sound observed member (mem_namedDots_of_removes removes)
  rw [installs.headsAfter path dot payload, ObservedRemove.live_insert_iff unremoved,
    sound.live path dot payload]
  -- The delta's own dot is new, so no head under it was there before.
  have fresh : ObservedRemove.Live (deltaEffects crypto) (before.installedDeltas crypto) path
      ⟨dot, payload.provenance⟩ payload.version → delta.dot ≠ dot := by
    rintro ⟨putter, member, sameKey, _⟩ same
    have logged := sound.logged_of_installed member
    have putterDot : putter.dot = dot := congrArg HeadRef.dot sameKey
    rw [putterDot, ← same, installs.unlogged] at logged
    cases logged
  constructor
  · intro choice
    rcases choice with ⟨same, puts, provenance⟩ | ⟨_, live, kept⟩
    · exact Or.inl ⟨by rw [← same, provenance]; rfl, puts⟩
    · exact Or.inr ⟨live, kept⟩
  · intro choice
    rcases choice with ⟨sameKey, puts⟩ | ⟨live, kept⟩
    · exact Or.inl ⟨congrArg HeadRef.dot sameKey, puts,
        (congrArg HeadRef.provenance sameKey).symm⟩
    · exact Or.inr ⟨fun lands => fresh live lands.1, live, kept⟩

theorem sound_after (decodes : delta.decodable = true)
    (observed : ∀ dot, dot ∈ delta.namedDots → observedBy before.context dot = true) :
    after.Sound crypto where
  quiet := installs.quiet sound.quiet
  context := fun author => by
    rw [installs.context_eq, installs.frontier_eq, getElem?_insert_eq,
      getElem?_insert_eq, sound.context author]
    split
    · rfl
    · rfl
  logged := installs.logged_iff sound
  tip := fun author entry known => by
    rw [installs.frontier_eq, getElem?_insert_eq] at known
    split at known
    · rename_i same
      cases known
      rw [installs.log_eq, ← same]
      simp [NativeDelta.dot]
    · exact installs.log_mono (sound.tip author entry known)
  body := fun dot hash logged => by
    rw [installs.installedDeltas_eq sound]
    rw [installs.log_eq, getElem?_insert_eq] at logged
    split at logged
    · rename_i same
      cases logged
      exact ⟨delta, Set.mem_insert _ _, same, rfl⟩
    · rcases sound.body dot hash logged with ⟨other, member, facts⟩
      exact ⟨other, Set.mem_insert_of_mem _ member, facts⟩
  bodyLogged := fun dot row recorded => by
    rw [installs.bodies_eq sound, getElem?_insert_eq] at recorded
    split at recorded
    · rename_i same
      cases recorded
      rw [← same, installs.log_eq]
      simp
    · have facts := sound.bodyLogged dot row recorded
      exact ⟨facts.1, facts.2.1, installs.log_mono facts.2.2⟩
  decodes := fun other member => by
    rw [installs.installedDeltas_eq sound] at member
    rcases Set.mem_insert_iff.mp member with same | old
    · exact same ▸ decodes
    · exact sound.decodes other old
  prev := fun other member => by
    rw [installs.installedDeltas_eq sound] at member
    -- Whatever the old log holds for a predecessor, the new one holds too.
    have stays : ∀ dot : Dot, 1 ≤ dot.seq → dot.seq ≤ positionSeq before.frontier[dot.author]? →
        after.log[dot]? = before.log[dot]? := by
      intro dot positive within
      rcases (sound.logged dot).mpr ⟨positive, within⟩ with ⟨hash, logged⟩
      rw [logged, installs.log_mono logged]
    rcases Set.mem_insert_iff.mp member with same | old
    · subst same
      have next := installs.seq_eq
      rw [installs.prev_eq sound]
      split
      · rfl
      · exact (stays ⟨other.author, other.seq - 1⟩ (by simp only; omega)
          (by simp only; omega)).symm
    · have logged := (sound.logged other.dot).mp ⟨_, sound.logged_of_installed old⟩
      simp only [dot] at logged
      rw [sound.prev other old]
      split
      · rfl
      · exact (stays ⟨other.author, other.seq - 1⟩ (by simp only; omega)
          (by simp only; omega)).symm
  named := fun other member dot named => by
    rw [installs.installedDeltas_eq sound] at member
    apply installs.observedBy_mono sound
    rcases Set.mem_insert_iff.mp member with same | old
    · exact observed dot (same ▸ named)
    · exact sound.named other old dot named
  live := fun path dot payload => by
    rw [installs.installedDeltas_eq sound]
    exact installs.live_iff sound observed path dot payload
  ownBound := fun path author => by
    by_cases touched : ∃ op, op ∈ delta.ops ∧ op.path = path
    · rcases touched with ⟨op, member, rfl⟩
      exact installs.ownBound op member author
    · rw [installs.dotsAt_untouched fun op member same => touched ⟨op, member, same⟩]
      exact sound.ownBound path author
  held := fun row member => by
    rw [installs.holds_eq] at member
    exact sound.held row member
  heldDistinct := by
    rw [installs.holds_eq]
    exact sound.heldDistinct

end Sound

end Installs

/-- The invariant says of the hold queue only that its deltas decode and have
distinct dots. -/
theorem Store.Sound.withHolds {crypto : Crypto} {store : Store} (sound : store.Sound crypto)
    {holds : List HoldRow} (held : ∀ row, row ∈ holds → row.delta.decodable = true)
    (heldDistinct : (holds.map fun row => row.delta.dot).Nodup) :
    Store.Sound crypto { store with holds := holds } :=
  ⟨⟨sound.quiet.closures, sound.quiet.closed, sound.quiet.journal⟩, sound.context,
    sound.logged, sound.tip, sound.body, sound.bodyLogged, sound.decodes, sound.prev, sound.named,
    sound.live, sound.ownBound, held, heldDistinct⟩

end Yadorilink

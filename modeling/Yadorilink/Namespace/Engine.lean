import Yadorilink.Namespace.Buckets

/-! Trie operations over decoded views of stored nodes. A view is a subtree positioned
at some key: a digest still in the store, or one decoded node whose children are
stored digests. Operations descend one position at a time and rebuild with `mk`,
which restores canonical form at every level. Where the source recurses without a
bound, the model takes the turns it may use. -/

namespace Yadorilink.Namespace

open Std

/-! ## Views -/

/-- The fields of a shape node below its skip. -/
structure ShapeBody where
  entry : Bool
  entryCount : Nat
  zero : NodeDigest
  one : NodeDigest
deriving DecidableEq

/-- A subtree positioned at some key; skips are relative to that key. Every entry of a
uniform view's shape holds the bucket trie `buckets`, whose counts are `perEntry`. -/
inductive View where
  | empty
  | stored (digest : NodeDigest)
  | branch (skip : Bits) (buckets : NodeDigest) (aggregates : HeadAggregates) (conflict : Bool)
      (zero one : NodeDigest)
  | uniform (skip : Bits) (buckets : NodeDigest) (perEntry : HeadAggregates) (shape : ShapeBody)
deriving DecidableEq

namespace View

def isEmpty : View → Bool
  | .empty => true
  | _ => false

def skip : View → Bits
  | .branch skip .. | .uniform skip .. => skip
  | .empty | .stored _ => []

def withSkip (newSkip : Bits) : View → View
  | .branch _ buckets aggregates conflict zero one =>
    .branch newSkip buckets aggregates conflict zero one
  | .uniform _ buckets perEntry shape => .uniform newSkip buckets perEntry shape
  | other => other

/-- Whether some entry below has more than one head. -/
def conflict : View → Bool
  | .branch _ _ _ conflict _ _ => conflict
  | .uniform _ _ perEntry _ => 1 < perEntry.headCount
  | .empty | .stored _ => false

def aggregates : View → HeadAggregates
  | .branch _ _ aggregates _ _ _ => aggregates
  | .uniform _ _ perEntry shape => perEntry.times shape.entryCount
  | .empty | .stored _ => .zero

/-- The bucket trie all entries share, with its counts. -/
def sharedBuckets : View → Option (NodeDigest × HeadAggregates)
  | .uniform _ buckets perEntry _ => some (buckets, perEntry)
  | _ => none

end View

def ShapeBody.node (shape : ShapeBody) (skip : Bits) : ShapeNodeV2 :=
  ⟨skip, shape.entry, shape.entryCount, shape.zero, shape.one⟩

/-- The shape node at a uniform view's position, which has no skip of its own. -/
def shapeRoot (shape : ShapeBody) : ShapeNodeV2 := shape.node []

/-- One path's new heads; no bucket removes the entry. -/
structure PathEditV2 where
  path : SyncPath
  heads : AuthorBuckets

/-- One path whose heads differ between two namespaces. -/
structure PathDiffV2 where
  path : SyncPath
  left : AuthorBuckets
  right : AuthorBuckets

/-- The sum of two `u64` counts, at most the largest. -/
def saturatingAdd (first second : Nat) : Nat := min (first + second) u64Max

section Model

variable (crypto : Crypto)

def View.ofDigest (digest : NodeDigest) : View :=
  if digest = emptyDigest crypto then .empty else .stored digest

def toNode : View → Option NodeV2
  | .branch skip buckets aggregates conflict zero one =>
    some (.branch skip buckets aggregates conflict zero one)
  | .uniform skip buckets perEntry shape =>
    some (.uniform skip ((shapeRoot shape).digest crypto) buckets (perEntry.times shape.entryCount))
  | .empty | .stored _ => none

def digestOf : View → NodeDigest
  | .empty => emptyDigest crypto
  | .stored digest => digest
  | decoded => ((toNode crypto decoded).map (NodeV2.digest crypto)).getD (emptyDigest crypto)

/-- Writes a view's own nodes and returns its digest. -/
def storeView : View → StoreM NodeDigest
  | .uniform skip buckets perEntry shape => do
      let root ← putShape crypto (shapeRoot shape)
      putNode crypto (.uniform skip root buckets (perEntry.times shape.entryCount))
  | .branch skip buckets aggregates conflict zero one =>
    putNode crypto (.branch skip buckets aggregates conflict zero one)
  | .stored digest => return digest
  | .empty => return emptyDigest crypto

/-- The fields of a shape node below its skip, under the rules a single node shows: a
position without an entry has two children, and a subtree has an entry. -/
def shapeBody (node : ShapeNodeV2) (owner : NodeDigest) : Except NamespaceError ShapeBody :=
  if node.entryCount = 0 ∨
      (node.entry = false ∧ (node.zero = emptyDigest crypto ∨ node.one = emptyDigest crypto)) then
    .error (.notCanonical owner)
  else
    .ok ⟨node.entry, node.entryCount, node.zero, node.one⟩

/-- Decodes a stored view under the canonical rules a single node shows; any other view
is returned as it is. -/
def resolve (store : NodeStore) : View → Except NamespaceError View
  | .stored digest => do
      match ← loadNode crypto store digest with
      | .branch skip buckets aggregates conflict zero one =>
        if buckets = emptyDigest crypto ∧
            (zero = emptyDigest crypto ∨ one = emptyDigest crypto) then
          .error (.notCanonical digest)
        else
          .ok (.branch skip buckets aggregates conflict zero one)
      | .uniform skip shape buckets aggregates =>
        if buckets = emptyDigest crypto then
          .error (.notCanonical digest)
        else do
          let root ← loadShape crypto store shape
          if root.skip.length ≠ 0 then
            .error (.notCanonical digest)
          else do
            let body ← shapeBody crypto root digest
            if aggregates.headCount % body.entryCount ≠ 0 ∨
                aggregates.duplicateAuthorCount % body.entryCount ≠ 0 then
              .error (.notCanonical digest)
            else
              .ok (.uniform skip buckets ⟨aggregates.headCount / body.entryCount,
                aggregates.duplicateAuthorCount / body.entryCount⟩ body)
  | view => .ok view

def uniformChild (store : NodeStore) (buckets : NodeDigest) (perEntry : HeadAggregates)
    (digest : NodeDigest) : Except NamespaceError View :=
  if digest = emptyDigest crypto then
    .ok .empty
  else do
    let node ← loadShape crypto store digest
    let body ← shapeBody crypto node digest
    return .uniform node.skip buckets perEntry body

/-- One position of the uncompressed trie: the bucket trie at the view's own key, and
the subtrees one bit below it. -/
def split (store : NodeStore) (view : View) :
    Except NamespaceError (NodeDigest × View × View) := do
  let view ← resolve crypto store view
  match view.skip with
  | first :: rest =>
    return if first then (emptyDigest crypto, .empty, view.withSkip rest)
      else (emptyDigest crypto, view.withSkip rest, .empty)
  | [] =>
    match view with
    | .branch _ buckets _ _ zero one =>
      return (buckets, .ofDigest crypto zero, .ofDigest crypto one)
    | .uniform _ buckets perEntry shape => do
        let zero ← uniformChild crypto store buckets perEntry shape.zero
        let one ← uniformChild crypto store buckets perEntry shape.one
        return (if shape.entry then buckets else emptyDigest crypto, zero, one)
    | .empty | .stored _ => return (emptyDigest crypto, .empty, .empty)

def prefixed (store : NodeStore) (view : View) (bits : Bits) : Except NamespaceError View :=
  if bits.isEmpty ∨ view.isEmpty then
    .ok view
  else do
    let view ← resolve crypto store view
    return view.withSkip (bits ++ view.skip)

/-! ## Building -/

/-- The content shape of a uniform child, stored, and its entry count. -/
def shapeOf : View → StoreM (NodeDigest × Nat)
  | .uniform skip _ _ shape => do
      let digest ← putShape crypto (shape.node skip)
      return (digest, shape.entryCount)
  | _ => return (emptyDigest crypto, 0)

/-- The bucket trie a uniform node over these parts would have. -/
def candidateOf (own : NodeDigest) (zeroView oneView : View) : Option NodeDigest :=
  if own ≠ emptyDigest crypto then some own
  else (zeroView.sharedBuckets.or oneView.sharedBuckets).map Prod.fst

def fitsUniform (buckets : NodeDigest) (view : View) : Bool :=
  view.isEmpty || view.sharedBuckets.map Prod.fst = some buckets

/-- The counts of the bucket trie a uniform node has, which a uniform child knows. -/
def perEntryOf (store : NodeStore) (buckets : NodeDigest) (zeroView oneView : View) :
    Except NamespaceError HeadAggregates :=
  match zeroView.sharedBuckets.or oneView.sharedBuckets with
  | some (_, perEntry) => .ok perEntry
  | none => aggregates crypto store buckets

/-- The uniform subtree over children that are empty or share `buckets`. -/
def mkUniform (own buckets : NodeDigest) (zeroView oneView : View) : StoreM View := do
  let perEntry ← reading fun store => perEntryOf crypto store buckets zeroView oneView
  let (zeroShape, zeroCount) ← shapeOf crypto zeroView
  let (oneShape, oneCount) ← shapeOf crypto oneView
  let hasOwn := own ≠ emptyDigest crypto
  return .uniform [] buckets perEntry
    ⟨hasOwn, saturatingAdd (saturatingAdd (decide hasOwn).toNat zeroCount) oneCount, zeroShape,
      oneShape⟩

/-- The subtree over children that do not share one bucket trie. -/
def mkBranch (own : NodeDigest) (zero one zeroView oneView : View) : StoreM View := do
  let ownAggregates ← reading fun store => aggregates crypto store own
  let zeroDigest ← storeView crypto zero
  let oneDigest ← storeView crypto one
  return .branch [] own ((ownAggregates.plus zeroView.aggregates).plus oneView.aggregates)
    (1 < ownAggregates.headCount || zeroView.conflict || oneView.conflict) zeroDigest oneDigest

/-- The subtree of a position that is a node of its own. -/
def mkNode (own : NodeDigest) (zero one zeroView oneView : View) : StoreM View :=
  match candidateOf crypto own zeroView oneView with
  | some buckets =>
    if fitsUniform buckets zeroView && fitsUniform buckets oneView then
      mkUniform crypto own buckets zeroView oneView
    else
      mkBranch crypto own zero one zeroView oneView
  | none => mkBranch crypto own zero one zeroView oneView

/-- The canonical subtree with bucket trie `own` at this position (the empty digest for
no entry) and the children `zero` and `one`. -/
def mk (own : NodeDigest) (zero one : View) : StoreM View := do
  let zeroView ← reading fun store => resolve crypto store zero
  let oneView ← reading fun store => resolve crypto store one
  match decide (own ≠ emptyDigest crypto), zeroView.isEmpty, oneView.isEmpty with
  | false, true, true => return .empty
  | false, false, true => reading fun store => prefixed crypto store zeroView [false]
  | false, true, false => reading fun store => prefixed crypto store oneView [true]
  | _, _, _ => mkNode crypto own zero one zeroView oneView

/-! ## One key -/

/-- The subtree at `key` below the view's position. Each turn takes at least one bit of
the key. -/
def sub (store : NodeStore) : Nat → View → Bits → Except NamespaceError View
  | _, view, [] => .ok view
  | 0, _, _ :: _ => .error .outOfTurns
  | turns + 1, view, bit :: rest => do
      let view ← resolve crypto store view
      if view.isEmpty then
        return .empty
      else
        match view.skip with
        | [] => do
            let (_, zero, one) ← split crypto store view
            sub store turns (if bit then one else zero) rest
        | skip =>
          let shared := commonPrefix skip (bit :: rest)
          if shared = (bit :: rest).length then
            return view.withSkip (skip.drop shared)
          else if shared < skip.length then
            return .empty
          else
            sub store turns (view.withSkip []) ((bit :: rest).drop shared)

/-- Replaces the subtree at `key` with `change` of it, rebuilding only the positions on
the way. -/
def atPrefix (change : View → StoreM View) : Nat → View → Bits → StoreM View
  | _, view, [] => change view
  | 0, _, _ :: _ => throw .outOfTurns
  | turns + 1, view, bit :: rest => do
      let view ← reading fun store => resolve crypto store view
      if view.isEmpty then do
        let placed ← change .empty
        reading fun store => prefixed crypto store placed (bit :: rest)
      else
        match view.skip with
        | [] => do
            let (own, zero, one) ← reading fun store => split crypto store view
            if bit then do
              let one ← atPrefix change turns one rest
              mk crypto own zero one
            else do
              let zero ← atPrefix change turns zero rest
              mk crypto own zero one
        | skip =>
          let shared := commonPrefix skip (bit :: rest)
          if shared = skip.length then do
            -- The key runs through this node's position.
            let inner ← atPrefix change turns (view.withSkip []) ((bit :: rest).drop shared)
            reading fun store => prefixed crypto store inner skip
          else if shared = (bit :: rest).length then do
            -- The key ends inside this node's skip.
            let replaced ← change (view.withSkip (skip.drop shared))
            reading fun store => prefixed crypto store replaced (bit :: rest)
          else do
            -- The key leaves this node's skip: the subtree there is empty.
            let placed ← change .empty
            if placed.isEmpty then
              return view
            else do
              let existing := view.withSkip (skip.drop (shared + 1))
              let placed ← reading fun store =>
                prefixed crypto store placed ((bit :: rest).drop (shared + 1))
              let fork ← mk crypto (emptyDigest crypto)
                (if skip.getD shared false then placed else existing)
                (if skip.getD shared false then existing else placed)
              reading fun store => prefixed crypto store fork (skip.take shared)

def readBuckets (store : NodeStore) (digest : NodeDigest) :
    Except NamespaceError AuthorBuckets := do
  let (heads, _) ← read crypto store digest u64Max
  return heads

/-! ## Two views together -/

/-- How two views at the same position are walked together: descend both by the bits
they share, or split both one position. -/
inductive Aligned where
  | shared (bits : Bits) (left right : View)
  | split (left right : NodeDigest × View × View)

/-- An empty side continues with any bits, so both descend by the other side's whole
skip at once. -/
def align (store : NodeStore) (left right : View) : Except NamespaceError Aligned := do
  let left ← resolve crypto store left
  let right ← resolve crypto store right
  let bits := if left.isEmpty then right.skip
    else if right.isEmpty then left.skip
    else left.skip.take (commonPrefix left.skip right.skip)
  if bits.isEmpty then do
    let leftParts ← split crypto store left
    let rightParts ← split crypto store right
    return .split leftParts rightParts
  else
    return .shared bits (left.withSkip (left.skip.drop bits.length))
      (right.withSkip (right.skip.drop bits.length))

/-- The difference at a position where the two sides name the bucket tries `left` and
`right`. -/
def diffHere (store : NodeStore) (left right : NodeDigest) (position : Bits) :
    Except NamespaceError (List PathDiffV2) :=
  if left = right then
    .ok []
  else do
    let path ← pathOf position
    let leftHeads ← readBuckets crypto store left
    let rightHeads ← readBuckets crypto store right
    return [⟨path, leftHeads, rightHeads⟩]

/-- Every path under `position` whose heads differ, in key order. -/
def diffFrom (store : NodeStore) : Nat → View → View → Bits →
    Except NamespaceError (List PathDiffV2)
  | turns, left, right, position =>
    if digestOf crypto left = digestOf crypto right then
      .ok []
    else
      match turns with
      | 0 => .error .outOfTurns
      | turns + 1 => do
          match ← align crypto store left right with
          | .shared bits left right => diffFrom store turns left right (position ++ bits)
          | .split (leftOwn, leftZero, leftOne) (rightOwn, rightZero, rightOne) => do
              let here ← diffHere crypto store leftOwn rightOwn position
              let zero ← diffFrom store turns leftZero rightZero (position ++ [false])
              let one ← diffFrom store turns leftOne rightOne (position ++ [true])
              return here ++ zero ++ one

/-- The bucket trie `digest` without the heads `seen` answers for. -/
def filterBuckets (seen : DeltaHash → Bool) (digest : NodeDigest) :
    StoreM (NodeDigest × HeadAggregates) := do
  let heads ← reading fun store => readBuckets crypto store digest
  storeHeads crypto (heads.map fun _ bucket => bucket.filter fun head => !seen head)

def filterUnseen (seen : DeltaHash → Bool) : Nat → View → StoreM View
  | turns, view => do
      let view ← reading fun store => resolve crypto store view
      match view with
      | .empty | .stored _ => return .empty
      | .uniform skip buckets _ shape => do
          let (buckets, perEntry) ← filterBuckets crypto seen buckets
          return if buckets = emptyDigest crypto then .empty
            else .uniform skip buckets perEntry shape
      | .branch (bit :: skip) .. =>
        match turns with
        | 0 => throw .outOfTurns
        | turns + 1 => do
            let inner ← filterUnseen seen turns (view.withSkip [])
            reading fun store => prefixed crypto store inner (bit :: skip)
      | .branch [] .. =>
        match turns with
        | 0 => throw .outOfTurns
        | turns + 1 => do
            let (own, zero, one) ← reading fun store => split crypto store view
            let (own, _) ← filterBuckets crypto seen own
            let zero ← filterUnseen seen turns zero
            let one ← filterUnseen seen turns one
            mk crypto own zero one

/-- One path's join: of the left heads those any bucket on the right has or the right
side has not seen, and of the right heads those the left side has not seen. -/
def joinHeads (seenByLeft seenByRight : DeltaHash → Bool) (left right : AuthorBuckets) :
    AuthorBuckets :=
  let rightHeads := flatten right
  let authors := (ExtTreeSet.ofList (left.keys ++ right.keys) compare).toList
  authors.foldl (fun joined author =>
    let fromLeft := (left[author]?).getD []
    let fromRight := (right[author]?).getD []
    let bucket := fromLeft.filter (fun head => rightHeads.contains head || !seenByRight head) ++
      fromRight.filter fun head => !seenByLeft head
    joined.insert author bucket) ∅

/-- The per-path join of two bucket tries, author by author. -/
def joinBuckets (seenByLeft seenByRight : DeltaHash → Bool) (left right : NodeDigest) :
    StoreM NodeDigest := do
  let left ← reading fun store => readBuckets crypto store left
  let right ← reading fun store => readBuckets crypto store right
  let (digest, _) ← storeHeads crypto (joinHeads seenByLeft seenByRight left right)
  return digest

def joinOwn (seenByLeft seenByRight : DeltaHash → Bool) (left right : NodeDigest) :
    StoreM NodeDigest :=
  if left = right then return left
  else joinBuckets crypto seenByLeft seenByRight left right

def fullZipFrom (seenByLeft seenByRight : DeltaHash → Bool) : Nat → View → View → StoreM View
  | turns, left, right =>
    if left.isEmpty then
      filterUnseen crypto seenByLeft turns right
    else if right.isEmpty then
      filterUnseen crypto seenByRight turns left
    else if digestOf crypto left = digestOf crypto right then
      return left
    else
      match turns with
      | 0 => throw .outOfTurns
      | turns + 1 => do
          match ← reading fun store => align crypto store left right with
          | .shared bits left right => do
              let inner ← fullZipFrom seenByLeft seenByRight turns left right
              reading fun store => prefixed crypto store inner bits
          | .split (leftOwn, leftZero, leftOne) (rightOwn, rightZero, rightOne) => do
              let own ← joinOwn crypto seenByLeft seenByRight leftOwn rightOwn
              let zero ← fullZipFrom seenByLeft seenByRight turns leftZero rightZero
              let one ← fullZipFrom seenByLeft seenByRight turns leftOne rightOne
              mk crypto own zero one

end Model

end Yadorilink.Namespace

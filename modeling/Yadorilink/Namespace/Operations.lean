import Yadorilink.Namespace.Engine

/-! The namespace operations over maps of buckets. Each takes the root of a namespace and
the store its nodes are in. -/

namespace Yadorilink.Namespace

open Std

section Operations

variable (crypto : Crypto)

def bucketsAt (store : NodeStore) (root : NodeDigest) (path : SyncPath) :
    Except NamespaceError NodeDigest := do
  let key ← pathKey path
  let found ← sub crypto store key.length (.ofDigest crypto root) key
  let (own, _, _) ← split crypto store found
  return own

/-- The heads at `path` in the namespace rooted at `root`. -/
def lookup (store : NodeStore) (root : NodeDigest) (path : SyncPath) :
    Except NamespaceError AuthorBuckets := do
  let own ← bucketsAt crypto store root path
  readBuckets crypto store own

def lookupBucket (store : NodeStore) (root : NodeDigest) (path : SyncPath) (author : AuthorId) :
    Except NamespaceError (List DeltaHash) := do
  let own ← bucketsAt crypto store root path
  bucketLookup crypto store own author

/-- The view with another bucket trie at its own position. -/
def placeBuckets (own : NodeDigest) (view : View) : StoreM View := do
  let (_, zero, one) ← reading fun store => split crypto store view
  mk crypto own zero one

def patchEdit (view : View) (edit : PathEditV2) : StoreM View := do
  let (own, _) ← storeHeads crypto edit.heads
  let key ← reading fun _ => pathKey edit.path
  atPrefix crypto (placeBuckets crypto own) key.length view key

def patchEdits (view : View) : List PathEditV2 → StoreM View
  | [] => return view
  | edit :: edits => do
      let next ← patchEdit crypto view edit
      patchEdits next edits

/-- Applies the edits in order and returns the new root. -/
def patch (root : NodeDigest) (edits : List PathEditV2) : StoreM NodeDigest := do
  let view ← patchEdits crypto (.ofDigest crypto root) edits
  storeView crypto view

/-- A sequence of patches, each of the root before it. -/
def patchAll (root : NodeDigest) : List (List PathEditV2) → StoreM NodeDigest
  | [] => return root
  | edits :: calls => do
      let next ← patch crypto root edits
      patchAll next calls

/-- Every path whose heads differ between two namespaces, ascending. -/
def diff (store : NodeStore) (turns : Nat) (left right : NodeDigest) :
    Except NamespaceError (List PathDiffV2) :=
  diffFrom crypto store turns (.ofDigest crypto left) (.ofDigest crypto right) []

/-- The counts of a namespace, read from its root node alone. -/
def rootAggregates (store : NodeStore) (root : NodeDigest) :
    Except NamespaceError HeadAggregates :=
  if root = emptyDigest crypto then
    .ok .zero
  else do
    match ← loadNode crypto store root with
    | .branch _ _ aggregates _ _ _ | .uniform _ _ _ aggregates => return aggregates

/-- Joins two full namespaces by digest. `seenByLeft` and `seenByRight` answer whether a
head is within that side's watermark for its author. -/
def fullZip (turns : Nat) (left right : NodeDigest) (seenByLeft seenByRight : DeltaHash → Bool) :
    StoreM NodeDigest := do
  let view ← fullZipFrom crypto seenByLeft seenByRight turns (.ofDigest crypto left)
    (.ofDigest crypto right)
  storeView crypto view

end Operations

end Yadorilink.Namespace

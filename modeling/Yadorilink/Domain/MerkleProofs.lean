import Yadorilink.Domain.AuthorizationCheckpoint
import Yadorilink.Domain.Codec
import Yadorilink.Foundation.MerkleTree

/-! The tree over a batch of delta hashes. The authority signs its root; the
audit path of a leaf, with the batch size the checkpoint commits to, pins that
leaf down. -/

namespace Yadorilink

open MerkleTree List

section Tree

variable (crypto : Crypto) (changeHashes : List (BitVec 256))

def merkleLeaves : List (BitVec 256) := changeHashes.map (leafHash crypto)

def merkleRoot : Option (BitVec 256) :=
  (climb (nodeHash crypto) changeHashes.length (merkleLeaves crypto changeHashes))[0]?

/-- The audit path of one leaf; there is none beyond the batch. -/
def buildMerkleProof (leafIndex : Nat) : Option MerkleProof :=
  if leafIndex < changeHashes.length then
    (audit (nodeHash crypto) changeHashes.length (merkleLeaves crypto changeHashes)
      leafIndex []).map fun siblings => ⟨leafIndex, changeHashes.length, siblings⟩
  else
    none

/-- The audit paths of all leaves, hashing each level once. -/
def buildMerkleProofs : Option (List MerkleProof) :=
  (auditAll (nodeHash crypto) changeHashes.length (merkleLeaves crypto changeHashes) 0
    (List.replicate changeHashes.length [])).map fun paths =>
      paths.mapIdx fun leafIndex siblings => ⟨leafIndex, changeHashes.length, siblings⟩

end Tree

/-! ## The source's loops -/

theorem climbLevels_eq (turns count depth : Nat) :
    climbLevels turns count depth = depth + height turns count := by
  induction turns generalizing count depth with
  | zero => rfl
  | succ turns induction =>
    rw [climbLevels, height]
    split
    · rw [induction]
      omega
    · rfl

theorem expectedProofDepth_eq (leafCount : Nat) :
    expectedProofDepth leafCount = height leafCount leafCount := by
  rw [expectedProofDepth, climbLevels_eq, Nat.zero_add]

theorem foldl_climb_eq_follow (crypto : Crypto) (siblings : List (BitVec 256))
    (hash : BitVec 256) (index : Nat) :
    (siblings.foldl (fun (climbed : BitVec 256 × Nat) sibling =>
      (if climbed.2 % 2 = 0 then nodeHash crypto climbed.1 sibling
        else nodeHash crypto sibling climbed.1, climbed.2 / 2)) (hash, index)).1 =
      follow (nodeHash crypto) hash index siblings := by
  induction siblings generalizing hash index with
  | nil => rfl
  | cons sibling rest induction =>
    rw [foldl_cons, induction, follow, parent, family]
    split <;> rfl

theorem recomputeRootFromProof_eq (crypto : Crypto) (changeHash : BitVec 256)
    (proof : MerkleProof) :
    recomputeRootFromProof crypto changeHash proof =
      follow (nodeHash crypto) (leafHash crypto changeHash) proof.leafIndex
        proof.siblings :=
  foldl_climb_eq_follow crypto proof.siblings (leafHash crypto changeHash) proof.leafIndex

/-! ## What is hashed -/

section Inputs

variable (crypto : Crypto)

def leafInput (changeHash : BitVec 256) : List UInt8 := 0 :: putHash changeHash

def nodeInput (pair : BitVec 256 × BitVec 256) : List UInt8 :=
  1 :: putHash pair.1 ++ putHash pair.2

/-- Everything hashed to build the tree of a batch. -/
def treeInputs (changeHashes : List (BitVec 256)) : List (List UInt8) :=
  changeHashes.map leafInput ++ (combined (nodeHash crypto) changeHashes.length
      (merkleLeaves crypto changeHashes)).map nodeInput

def proofInputs (changeHash : BitVec 256) (proof : MerkleProof) : List (List UInt8) :=
  leafInput changeHash ::
    (followed (nodeHash crypto) (leafHash crypto changeHash) proof.leafIndex
      proof.siblings).map nodeInput

def DigestCollisionFree (inputs : List (List UInt8)) : Prop :=
  ∀ first ∈ inputs, ∀ second ∈ inputs, crypto.sha256 first = crypto.sha256 second → first = second

end Inputs

theorem putHash_injective {first second : BitVec 256} (same : putHash first = putHash second) :
    first = second :=
  BitVec.eq_of_toNat_eq (beBytes_injective first.isLt second.isLt same)

theorem leafInput_injective {first second : BitVec 256}
    (same : leafInput first = leafInput second) : first = second :=
  putHash_injective (cons_inj_right _ |>.mp same)

theorem nodeInput_injective {first second : BitVec 256 × BitVec 256}
    (same : nodeInput first = nodeInput second) : first = second := by
  have lengths : (putHash first.1).length = (putHash second.1).length := by
    rw [putHash, putHash, beBytes_length, beBytes_length]
  have parts := append_inj (cons_inj_right _ |>.mp same) lengths
  exact Prod.ext (putHash_injective parts.1) (putHash_injective parts.2)

/-! ## Proofs of one batch -/

section Batch

variable {crypto : Crypto} {changeHashes : List (BitVec 256)} {leafIndex : Nat}
  {changeHash : BitVec 256}

theorem length_merkleLeaves : (merkleLeaves crypto changeHashes).length = changeHashes.length :=
  length_map ..

theorem getElem?_merkleLeaves (atIndex : changeHashes[leafIndex]? = some changeHash) :
    (merkleLeaves crypto changeHashes)[leafIndex]? = some (leafHash crypto changeHash) := by
  rw [merkleLeaves, getElem?_map, atIndex]
  rfl

/-- The proof built for a leaf has the expected depth and leads from that leaf
to the root. -/
theorem buildMerkleProof_spec (atIndex : changeHashes[leafIndex]? = some changeHash) :
    ∃ proof, buildMerkleProof crypto changeHashes leafIndex = some proof ∧
      proof.leafIndex = leafIndex ∧ proof.leafCount = changeHashes.length ∧
      proof.siblings.length = expectedProofDepth changeHashes.length ∧
      merkleRoot crypto changeHashes = some (recomputeRootFromProof crypto changeHash proof) := by
  have inside : leafIndex < changeHashes.length := (List.getElem?_eq_some_iff.mp atIndex).1
  rcases audit_spec (nodeHash crypto) [] (le_of_eq length_merkleLeaves)
    (getElem?_merkleLeaves atIndex) with ⟨path, audited, length, root⟩
  refine ⟨⟨leafIndex, changeHashes.length, path⟩, ?_, rfl, rfl, ?_, ?_⟩
  · rw [buildMerkleProof, if_pos inside, audited]
    rfl
  · rw [expectedProofDepth_eq, length, length_merkleLeaves]
  · rw [merkleRoot, root, recomputeRootFromProof_eq]

theorem buildMerkleProofs_spec : ∃ proofs, buildMerkleProofs crypto changeHashes = some proofs ∧
    ∀ leafIndex, leafIndex < changeHashes.length →
      proofs[leafIndex]? = buildMerkleProof crypto changeHashes leafIndex := by
  have inside : ∀ leaf, leaf < (List.replicate changeHashes.length ([] : List (BitVec 256))).length →
      leaf >>> 0 < (merkleLeaves crypto changeHashes).length := by
    intro leaf below
    rw [length_merkleLeaves]
    simpa using below
  rcases auditAll_spec (nodeHash crypto) (le_of_eq length_merkleLeaves) inside with
    ⟨paths, audited, _, each⟩
  refine ⟨_, by rw [buildMerkleProofs, audited]; rfl, ?_⟩
  intro leafIndex below
  rw [getElem?_mapIdx, each leafIndex [] (by simp [below]), buildMerkleProof, if_pos below]
  rfl

theorem verifyChangeInclusion_ok {proof : MerkleProof} {checkpoint : AuthorizationCheckpoint}
    (accepted : verifyChangeInclusion crypto changeHash proof checkpoint = .ok ()) :
    checkpoint.leafCount = proof.leafCount ∧ proof.leafIndex < proof.leafCount ∧
      proof.siblings.length = expectedProofDepth proof.leafCount ∧
      recomputeRootFromProof crypto changeHash proof = checkpoint.merkleRoot := by
  simp only [verifyChangeInclusion] at accepted
  by_cases count : checkpoint.leafCount = proof.leafCount
  · by_cases inside : proof.leafCount ≤ proof.leafIndex
    · simp [count, inside] at accepted
    · by_cases depth : proof.siblings.length = expectedProofDepth proof.leafCount
      · by_cases root : recomputeRootFromProof crypto changeHash proof = checkpoint.merkleRoot
        · exact ⟨count, by omega, depth, root⟩
        · simp [count, inside, depth, root] at accepted
      · simp [count, inside, depth] at accepted
  · simp [count] at accepted

theorem getElem?_of_verifyChangeInclusion {proof : MerkleProof}
    {checkpoint : AuthorizationCheckpoint}
    (root : merkleRoot crypto changeHashes = some checkpoint.merkleRoot)
    (count : checkpoint.leafCount = changeHashes.length)
    (collisionFree : DigestCollisionFree crypto
      (treeInputs crypto changeHashes ++ proofInputs crypto changeHash proof))
    (accepted : verifyChangeInclusion crypto changeHash proof checkpoint = .ok ()) :
    changeHashes[proof.leafIndex]? = some changeHash := by
  rcases verifyChangeInclusion_ok accepted with ⟨sameCount, below, depth, reached⟩
  rw [count] at sameCount
  rw [← sameCount] at below depth
  rw [expectedProofDepth_eq] at depth
  -- The pairs hashed on either side are told apart by their digests.
  let known : Set (BitVec 256 × BitVec 256) := fun pair =>
    nodeInput pair ∈ treeInputs crypto changeHashes ++ proofInputs crypto changeHash proof
  have injective : Set.InjOn (fun pair => nodeHash crypto pair.1 pair.2) known := by
    intro first firstKnown second secondKnown same
    exact nodeInput_injective (collisionFree _ firstKnown _ secondKnown same)
  have leaf : (merkleLeaves crypto changeHashes)[proof.leafIndex]? =
      some (leafHash crypto changeHash) := by
    apply follow_sound (nodeHash crypto) injective
    · intro pair combined
      exact mem_append_left _ (mem_append_right _ (mem_map_of_mem combined))
    · intro pair followed
      exact mem_append_right _ (.tail _ (mem_map_of_mem followed))
    · exact le_of_eq length_merkleLeaves
    · rw [length_merkleLeaves]
      exact below
    · rw [length_merkleLeaves]
      exact depth
    · rw [← recomputeRootFromProof_eq, reached]
      exact root
  rw [merkleLeaves, getElem?_map, getElem?_eq_getElem below] at leaf
  have inTree : leafInput changeHashes[proof.leafIndex] ∈
      treeInputs crypto changeHashes ++ proofInputs crypto changeHash proof :=
    mem_append_left _ (mem_append_left _ (mem_map_of_mem (getElem_mem below)))
  have inProof : leafInput changeHash ∈
      treeInputs crypto changeHashes ++ proofInputs crypto changeHash proof :=
    mem_append_right _ mem_cons_self
  have same := leafInput_injective (collisionFree _ inTree _ inProof (Option.some.inj leaf))
  rw [getElem?_eq_getElem below, same]

end Batch

/-- Every proof built for a batch verifies, and whatever verifies against the
batch's root is one of its hashes at the index it claims. -/
theorem merkle_proofs_complete_and_sound (crypto : Crypto) (changeHashes : List (BitVec 256)) :
    (∀ leafIndex changeHash, changeHashes[leafIndex]? = some changeHash →
      ∃ proof proofs, buildMerkleProof crypto changeHashes leafIndex = some proof ∧
        proof.leafIndex = leafIndex ∧
        merkleRoot crypto changeHashes = some (recomputeRootFromProof crypto changeHash proof) ∧
        proof.siblings.length = expectedProofDepth changeHashes.length ∧
        buildMerkleProofs crypto changeHashes = some proofs ∧ proofs[leafIndex]? = some proof) ∧
    ∀ changeHash proof checkpoint, merkleRoot crypto changeHashes = some checkpoint.merkleRoot →
      checkpoint.leafCount = changeHashes.length →
      DigestCollisionFree crypto
        (treeInputs crypto changeHashes ++ proofInputs crypto changeHash proof) →
      verifyChangeInclusion crypto changeHash proof checkpoint = .ok () →
      changeHashes[proof.leafIndex]? = some changeHash := by
  constructor
  · intro leafIndex changeHash atIndex
    rcases buildMerkleProof_spec atIndex with ⟨proof, built, index, _, depth, root⟩
    rcases buildMerkleProofs_spec with ⟨proofs, builtAll, each⟩
    refine ⟨proof, proofs, built, index, root, depth, builtAll, ?_⟩
    rw [each leafIndex (List.getElem?_eq_some_iff.mp atIndex).1, built]
  · intro changeHash proof checkpoint root count collisionFree accepted
    exact getElem?_of_verifyChangeInclusion root count collisionFree accepted

namespace SampleBatch

def hashes : List (BitVec 256) := [1, 2, 3]

def proof : MerkleProof :=
  ⟨2, 3, [leafHash Crypto.sample 3,
    nodeHash Crypto.sample (leafHash Crypto.sample 1) (leafHash Crypto.sample 2)]⟩

def checkpoint : AuthorizationCheckpoint :=
  ⟨"group", "laptop", 0, (merkleRoot Crypto.sample hashes).getD 0, 3, 1, 0, 0, 0, 0, 0⟩

end SampleBatch

set_option maxRecDepth 8192 in
theorem merkle_proofs_of_three : SampleBatch.hashes[SampleBatch.proof.leafIndex]? = some 3 :=
  (merkle_proofs_complete_and_sound Crypto.sample SampleBatch.hashes).2 3 SampleBatch.proof
    SampleBatch.checkpoint
    (by decide) (by decide) (by unfold DigestCollisionFree; decide)
    (by decide)

end Yadorilink

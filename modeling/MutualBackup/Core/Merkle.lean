import MutualBackup.Core.Coding
import MutualBackup.Framework.HashTree

/-!
# Merkle ranges and subtrees

The part of `range.rs` that opens and recomposes aligned ranges of a commitment.  A range is named
by its first leaf and its leaf count, a power of two; a proof carries its leaves, or only the root
over them, and the siblings on the way up.  The accumulator composes the roots of equal subtrees in
order, keeping one pending root per level.

The guards of a function keep its indices in range, so a lookup that the source makes by indexing
has a default here that is never used.  The slots of the accumulator are the exception: whether a
slot is there and occupied depends on the whole history of pushes, so that a push aborts when it
finds none.
-/

namespace MutualBackup

open Framework Codec

/-- A range with its bytes, with the siblings from its subtree toward the root. -/
structure MerkleRangeProof where
  formatVersion : U16
  startLeaf : U32
  leaves : List (Bytes 16)
  siblings : List (Bytes 32)
  deriving DecidableEq, Repr

/-- A subtree without its bytes, with the siblings from the subtree toward the root. -/
structure MerkleSubtreeProof where
  formatVersion : U16
  startLeaf : U32
  leafCount : U32
  subtreeRoot : Bytes 32
  siblings : List (Bytes 32)
  deriving DecidableEq, Repr

/-- The number of levels above the leaves of the largest tree. -/
def maxMerkleHeight : ℕ := (maxMerkleBytes / merkleLeafSize).log2

def MerkleSubtreeProof.codec : Codec MerkleSubtreeProof := (pair u16 <| pair u32 <| pair u32 <|
    pair (bytes 32) <|
      (list (bytes 32)).bounded fun siblings => siblings.length ≤ maxMerkleHeight).iso
    (fun p => (p.formatVersion, p.startLeaf, p.leafCount, p.subtreeRoot, p.siblings))
    (fun p => ⟨p.1, p.2.1, p.2.2.1, p.2.2.2.1, p.2.2.2.2⟩) fun _ => rfl

section Trees

variable (C : Crypto)

/-! ## Levels -/

/-- The leaf at an index of the bytes. -/
def merkleLeaf (bytes : List UInt8) (index : ℕ) : Bytes 16 :=
  (Bytes.ofList 16 ((bytes.drop (merkleLeafSize * index)).take merkleLeafSize)).getD 0

/-- The hashes of the level above. -/
def pairUp : List (Bytes 32) → List (Bytes 32)
  | left :: right :: rest => hashNode C left right :: pairUp rest
  | _ => []

/-- The `while` loop of `merkle_levels`, which halves the level every time. -/
def merkleLevelsFrom : ℕ → List (Bytes 32) → List (List (Bytes 32))
  | 0, level => [level]
  | fuel + 1, level =>
    if 1 < level.length then level :: merkleLevelsFrom fuel (pairUp C level) else [level]

/-- `merkle_levels`. -/
def merkleLevels (bytes : List UInt8) : List (List (Bytes 32)) :=
  let leaves := (List.range (bytes.length / merkleLeafSize)).map fun i =>
    hashLeaf C (merkleLeaf bytes i)
  merkleLevelsFrom C leaves.length leaves

/-- `merkle_commit`. -/
def merkleCommit (bytes : List UInt8) : Outcome MerkleError MerkleCommitment := do
  validateDataLen bytes.length
  let treeRoot := ((merkleLevels C bytes).getLast?.bind fun level => level[0]?).getD 0
  let byteLen := Fin.ofNat _ bytes.length
  pure
    { formatVersion := 1
      leafSize := 16
      byteLen := byteLen
      root := bindRoot C byteLen treeRoot }

/-- A commitment to bytes records their length. -/
lemma merkleCommit_eq_ok {bytes : List UInt8} {commitment : MerkleCommitment}
    (h : merkleCommit C bytes = .ok commitment) :
    commitment.formatVersion = 1 ∧ commitment.leafSize = 16 ∧
      commitment.byteLen.val = bytes.length := by
  obtain ⟨_, hlen, hcommit⟩ := bind_eq_ok.mp h
  obtain rfl := pure_eq_ok.mp hcommit
  have hle : bytes.length ≤ maxMerkleBytes := by
    have hgood := reject_eq_ok.mp hlen
    push Not at hgood
    exact hgood.2.1
  refine ⟨rfl, rfl, ?_⟩
  rw [Fin.val_ofNat]
  exact Nat.mod_eq_of_lt (hle.trans_lt (by decide))

/-! ## Proofs -/

/-- The range names a subtree: its size is a power of two, it is aligned, and it is in the tree. -/
def isSubtree (start count totalLeaves : ℕ) : Prop :=
  count ≠ 0 ∧ isPowerOfTwo count ∧ start % count = 0 ∧ start + count ≤ totalLeaves
  deriving Decidable

/-- The siblings on the way up from a node, one per level below the root. -/
def siblingsFrom : List (List (Bytes 32)) → ℕ → List (Bytes 32)
  | level :: above :: rest, node =>
    (level[node ^^^ 1]?).getD 0 :: siblingsFrom (above :: rest) (node / 2)
  | _, _ => []

/-- `merkle_open_subtree`. -/
def merkleOpenSubtree (bytes : List UInt8) (startLeaf leafCount : U32) :
    Outcome MerkleError MerkleSubtreeProof := do
  validateDataLen bytes.length
  reject (¬ isSubtree startLeaf.val leafCount.val (bytes.length / merkleLeafSize)) .invalidRange
  let levels := merkleLevels C bytes
  let subtreeLevel := leafCount.val.log2
  let node := startLeaf.val / 2 ^ subtreeLevel
  pure
    { formatVersion := 1
      startLeaf := startLeaf
      leafCount := leafCount
      subtreeRoot := ((levels[subtreeLevel]?).bind fun level => level[node]?).getD 0
      siblings := siblingsFrom (levels.drop subtreeLevel) node }

/-- `merkle_open_range`. -/
def merkleOpenRange (bytes : List UInt8) (startLeaf leafCount : U32) :
    Outcome MerkleError MerkleRangeProof := do
  validateDataLen bytes.length
  reject (¬ isSubtree startLeaf.val leafCount.val (bytes.length / merkleLeafSize)) .invalidRange
  let levels := merkleLevels C bytes
  let subtreeLevel := leafCount.val.log2
  pure
    { formatVersion := 1
      startLeaf := startLeaf
      leaves := (List.range leafCount.val).map fun i => merkleLeaf bytes (startLeaf.val + i)
      siblings := siblingsFrom (levels.drop subtreeLevel) (startLeaf.val / 2 ^ subtreeLevel) }

/-- The loop of `merkle_open_zero_range`, with the siblings and the root of ever larger subtrees of
zeros: the roots are siblings from the level of the range on. -/
def zeroSiblings (subtreeLevel treeHeight : ℕ) : List (Bytes 32) × Bytes 32 :=
  (List.range treeHeight).foldl (fun zeros level =>
    (if subtreeLevel ≤ level then zeros.1 ++ [zeros.2] else zeros.1,
      hashNode C zeros.2 zeros.2)) ([], hashLeaf C 0)

/-- `merkle_open_zero_range`. -/
def merkleOpenZeroRange (byteLen startLeaf leafCount : U32) :
    Outcome MerkleError MerkleRangeProof := do
  validateDataLen byteLen.val
  reject (¬ isSubtree startLeaf.val leafCount.val (byteLen.val / merkleLeafSize)) .invalidRange
  let treeHeight := (byteLen.val / merkleLeafSize).log2
  pure
    { formatVersion := 1
      startLeaf := startLeaf
      leaves := List.replicate leafCount.val 0
      siblings := (zeroSiblings C leafCount.val.log2 treeHeight).1 }

/-- The loop of `merkle_verify_subtree`: the root above a node, with its siblings. -/
def rootAbove : Bytes 32 → ℕ → List (Bytes 32) → Bytes 32
  | current, _, [] => current
  | current, node, sibling :: siblings =>
    rootAbove (if node % 2 = 0 then hashNode C current sibling else hashNode C sibling current)
      (node / 2) siblings

/-- `merkle_verify_subtree`. -/
def merkleVerifySubtree (commitment : MerkleCommitment) (proof : MerkleSubtreeProof) :
    Outcome MerkleError (Bytes 32) := do
  commitment.validate
  let totalLeaves := commitment.byteLen.val / merkleLeafSize
  reject (proof.formatVersion ≠ 1 ∨
    ¬ isSubtree proof.startLeaf.val proof.leafCount.val totalLeaves ∨
    proof.subtreeRoot = 0) .invalidProof
  let subtreeLevel := proof.leafCount.val.log2
  reject (proof.siblings.length ≠ totalLeaves.log2 - subtreeLevel) .invalidProof
  let root := rootAbove C proof.subtreeRoot (proof.startLeaf.val / 2 ^ subtreeLevel) proof.siblings
  reject (bindRoot C commitment.byteLen root ≠ commitment.root) .rootMismatch
  pure proof.subtreeRoot

/-- `merkle_verify_range`.  The loop over the nodes is that of `merkle_levels`, of which only the
last level is kept. -/
def merkleVerifyRange (commitment : MerkleCommitment) (proof : MerkleRangeProof) :
    Outcome MerkleError (List UInt8) := do
  commitment.validate
  let totalLeaves := commitment.byteLen.val / merkleLeafSize
  let count := proof.leaves.length
  reject (proof.formatVersion ≠ 1 ∨ ¬ isSubtree proof.startLeaf.val count totalLeaves) .invalidProof
  let subtreeLevel := count.log2
  reject (proof.siblings.length ≠ totalLeaves.log2 - subtreeLevel) .invalidProof
  let nodes := proof.leaves.map (hashLeaf C)
  let current :=
    ((merkleLevelsFrom C nodes.length nodes).getLast?.bind fun level => level[0]?).getD 0
  let root := rootAbove C current (proof.startLeaf.val / 2 ^ subtreeLevel) proof.siblings
  reject (bindRoot C commitment.byteLen root ≠ commitment.root) .rootMismatch
  pure (proof.leaves.flatMap Bytes.toList)

/-! ## The accumulator -/

structure MerkleSubtreeAccumulator where
  byteLen : U32
  width : ℕ
  consumed : ℕ
  /-- The pending root of every level. -/
  frontier : List (Option (Bytes 32))
  failed : Bool

namespace MerkleSubtreeAccumulator

/-- `MerkleSubtreeAccumulator::new`. -/
def new (byteLen subtreeByteLen : U32) : Outcome MerkleError MerkleSubtreeAccumulator := do
  validateDataLen byteLen.val
  validateDataLen subtreeByteLen.val
  reject (byteLen < subtreeByteLen) .invalidProof
  pure
    { byteLen := byteLen
      width := byteLen.val / subtreeByteLen.val
      consumed := 0
      frontier := List.replicate (maxMerkleHeight + 1) none
      failed := false }

/-- `MerkleSubtreeAccumulator::push`.  The `while` loop is the carry of a binary counter; it aborts
where a slot is missing or not occupied. -/
def push (a : MerkleSubtreeAccumulator) (root : Bytes 32) :
    MerkleSubtreeAccumulator × Outcome MerkleError Unit :=
  if a.failed ∨ a.consumed = a.width ∨ root = 0 then
    ({ a with failed := true }, fail .invalidProof)
  else
    match HashTree.carry (hashNode C) a.frontier a.consumed root with
    | none => (a, .error .overflow)
    | some frontier => ({ a with frontier, consumed := a.consumed + 1 }, .ok ())

/-- `MerkleSubtreeAccumulator::finish`. -/
def finish (a : MerkleSubtreeAccumulator) : Outcome MerkleError MerkleCommitment := do
  reject (a.failed ∨ a.consumed ≠ a.width) .invalidProof
  let slot ← expect a.frontier[a.width.log2]?
  let root ← okOr slot .invalidProof
  pure
    { formatVersion := 1
      leafSize := 16
      byteLen := a.byteLen
      root := bindRoot C a.byteLen root }

end MerkleSubtreeAccumulator

/-- `merkle_commit_subtrees`. -/
def merkleCommitSubtrees (byteLen subtreeByteLen : U32) (subtreeRoots : List (Bytes 32)) :
    Outcome MerkleError MerkleCommitment := do
  let builder ← MerkleSubtreeAccumulator.new byteLen subtreeByteLen
  let builder ← subtreeRoots.foldlM (fun a root => settled (a.push C root)) builder
  builder.finish C

end Trees

end MutualBackup

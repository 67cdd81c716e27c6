import MutualBackup.Core.Merkle

/-!
# Openings of a Merkle commitment

What `merkle_commit`, `merkle_open_range` and `merkle_open_subtree` compute, in terms of the levels
of a hash tree, and what `merkle_verify_range` and `merkle_verify_subtree` accept.

A commitment over `16 * 2 ^ h` bytes is a tree of height `h`, and the range of `2 ^ k` leaves from
leaf `2 ^ k * n` on is its node `n` at height `k`.  `merkle_openings_complete_and_binding` says that
the openings of a commitment are accepted and return what they stand for, and that nothing else is
accepted.  A hash into 32 bytes has collisions, so the binding part assumes that none was found:
that no input of the commitment collides with an input of the verification, where the inputs of both
are listed (`commitCalls`, `rangeCalls`, `subtreeCalls`).
-/

namespace MutualBackup

open Framework List HashTree

/-! ## Lengths and ranges -/

/-- The lengths that have a commitment: the powers of two from 16 bytes to 4 MiB. -/
def LegalLength (n : ℕ) : Prop := 16 ≤ n ∧ n ≤ 4 * 1024 * 1024 ∧ ∃ k, n = 2 ^ k

lemma legalLength_iff {n : ℕ} : LegalLength n ↔ ∃ h ≤ 18, n = 16 * 2 ^ h := by
  constructor
  · rintro ⟨hmin, hmax, k, rfl⟩
    have hk : 4 ≤ k := (Nat.pow_le_pow_iff_right (by norm_num : 1 < 2)).mp hmin
    have hk' : k ≤ 22 := (Nat.pow_le_pow_iff_right (by norm_num : 1 < 2)).mp hmax
    refine ⟨k - 4, by omega, ?_⟩
    rw [show (16 : ℕ) = 2 ^ 4 by norm_num, ← pow_add, Nat.add_sub_cancel' hk]
  · rintro ⟨h, hle, rfl⟩
    have hpow : 2 ^ h ≤ 2 ^ 18 := Nat.pow_le_pow_right (by norm_num) hle
    have hpos : 0 < 2 ^ h := by positivity
    exact ⟨by omega, by omega, h + 4, by rw [pow_add, Nat.mul_comm]; norm_num⟩

lemma isPowerOfTwo_iff {n : ℕ} : isPowerOfTwo n ↔ ∃ k, n = 2 ^ k := by
  constructor
  · intro h
    exact ⟨n.log2, Eq.symm h⟩
  · rintro ⟨k, rfl⟩
    rw [isPowerOfTwo, Nat.log2_two_pow]

lemma validateDataLen_eq_ok {n : ℕ} : validateDataLen n = .ok () ↔ LegalLength n := by
  rw [validateDataLen, reject_eq_ok, isPowerOfTwo_iff, LegalLength, merkleLeafSize, maxMerkleBytes]
  push Not
  constructor
  · rintro ⟨hmin, hmax, hpow, -⟩
    exact ⟨hmin, hmax, hpow⟩
  · intro h
    obtain ⟨k, -, hk⟩ := legalLength_iff.mp h
    exact ⟨h.1, h.2.1, h.2.2, by omega⟩

/-- The range is the node `n` at height `k` of a tree of height `h`. -/
structure IsNode (h k n start count : ℕ) : Prop where
  height : k ≤ h
  position : n < 2 ^ (h - k)
  count : count = 2 ^ k
  start : start = 2 ^ k * n

variable {bytes : List UInt8} {h k n start count : ℕ}

section

variable (hnode : IsNode h k n start count)

include hnode

lemma IsNode.end_le : start + count ≤ 2 ^ h := by
  rw [hnode.count, hnode.start, ← Nat.mul_succ, ← Nat.add_sub_cancel' hnode.height, pow_add]
  exact Nat.mul_le_mul_left _ hnode.position

lemma IsNode.log2_count : count.log2 = k := by
  rw [hnode.count, Nat.log2_two_pow]

lemma IsNode.start_div : start / 2 ^ k = n := by
  rw [hnode.start, Nat.mul_div_cancel_left _ (by positivity)]

end

lemma isSubtree_iff : isSubtree start count (2 ^ h) ↔ ∃ k n, IsNode h k n start count := by
  rw [isSubtree, isPowerOfTwo_iff]
  constructor
  · rintro ⟨-, ⟨k, rfl⟩, haligned, hend⟩
    obtain ⟨n, rfl⟩ := Nat.dvd_of_mod_eq_zero haligned
    have hk : k ≤ h := (Nat.pow_le_pow_iff_right (by norm_num : 1 < 2)).mp (by omega)
    refine ⟨k, n, hk, ?_, rfl, rfl⟩
    rw [← Nat.add_sub_cancel' hk, pow_add, ← Nat.mul_succ] at hend
    exact Nat.le_of_mul_le_mul_left hend (by positivity)
  · rintro ⟨k, n, hnode⟩
    refine ⟨?_, ⟨k, hnode.count⟩, ?_, hnode.end_le⟩
    · rw [hnode.count]
      positivity
    · rw [hnode.count, hnode.start, Nat.mul_mod_right]

/-! ## Leaves -/

/-- The bytes of a range of leaves. -/
def leafRange (bytes : List UInt8) (start count : ℕ) : List UInt8 :=
  (bytes.drop (16 * start)).take (16 * count)

lemma length_leafRange (hend : 16 * (start + count) ≤ bytes.length) :
    (leafRange bytes start count).length = 16 * count := by
  rw [leafRange, length_take, length_drop]
  omega

lemma toList_merkleLeaf {i : ℕ} (hi : 16 * (i + 1) ≤ bytes.length) :
    (merkleLeaf bytes i).toList = leafRange bytes i 1 := by
  have hlen : (leafRange bytes i 1).length = 16 := length_leafRange hi
  obtain ⟨leaf, hleaf, htoList⟩ := Bytes.toList_ofList hlen
  have hdef : merkleLeaf bytes i = (Bytes.ofList 16 (leafRange bytes i 1)).getD 0 := rfl
  rw [hdef, hleaf, Option.getD_some, htoList]

lemma leafRange_add {a b : ℕ} :
    leafRange bytes start (a + b) = leafRange bytes start a ++ leafRange bytes (start + a) b := by
  rw [leafRange, leafRange, leafRange, Nat.mul_add, take_add, drop_drop, Nat.mul_add]

/-- The leaves of a range make up its bytes. -/
lemma flatMap_merkleLeaf (hend : 16 * (start + count) ≤ bytes.length) :
    ((List.range count).map fun i => merkleLeaf bytes (start + i)).flatMap Bytes.toList =
      leafRange bytes start count := by
  induction count with
  | zero => simp [leafRange]
  | succ count ih =>
    rw [range_succ, map_append, flatMap_append, ih (by omega), leafRange_add,
      map_singleton, flatMap_singleton, toList_merkleLeaf (by omega)]

/-- The leaves of the bytes of a range. -/
lemma merkleLeaf_leafRange {i : ℕ} (hi : i < count) :
    merkleLeaf (leafRange bytes start count) i = merkleLeaf bytes (start + i) := by
  rw [merkleLeaf, merkleLeaf, leafRange, drop_take, drop_drop, take_take,
    merkleLeafSize, show min 16 (16 * count - 16 * i) = 16 by omega, ← Nat.mul_add]

/-- The bytes are determined by their leaves. -/
lemma eq_of_merkleLeaf_eq {other : List UInt8} (hlen : bytes.length = 16 * count)
    (hlen' : other.length = 16 * count)
    (hleaf : ∀ i < count, merkleLeaf bytes i = merkleLeaf other i) : bytes = other := by
  have hall : ∀ xs : List UInt8, xs.length = 16 * count → leafRange xs 0 count = xs := by
    intro xs hxs
    rw [leafRange, Nat.mul_zero, drop_zero, take_of_length_le hxs.le]
  rw [← hall bytes hlen, ← hall other hlen', ← flatMap_merkleLeaf (by omega),
    ← flatMap_merkleLeaf (by omega)]
  refine congrArg (List.flatMap Bytes.toList) (map_congr_left fun i hi => ?_)
  rw [Nat.zero_add, hleaf i (mem_range.mp hi)]

/-! ## The tree -/

section Tree

variable (C : Crypto)

/-- The lowest level of the tree. -/
def leafHash (bytes : List UInt8) (i : ℕ) : Bytes 32 := hashLeaf C (merkleLeaf bytes i)

/-- The root over bytes before it is bound to their length. -/
def merkleTreeRoot (bytes : List UInt8) : Bytes 32 :=
  ((merkleLevels C bytes).getLast?.bind fun level => level[0]?).getD 0

variable {C}

lemma pairUp_range {f : ℕ → Bytes 32} : pairUp C ((List.range (2 * n)).map f) =
    (List.range n).map (parents (hashNode C) f) := by
  induction n generalizing f with
  | zero => rfl
  | succ n ih =>
    rw [Nat.mul_succ, range_succ_eq_map, range_succ_eq_map, range_succ_eq_map]
    simp only [map_cons, map_map, pairUp]
    congr 1
    exact ih

/-- The loop of `merkle_levels` over a full level. -/
lemma merkleLevelsFrom_range {f : ℕ → Bytes 32} {fuel : ℕ} (hfuel : h ≤ fuel) :
    merkleLevelsFrom C fuel ((List.range (2 ^ h)).map f) = rows (hashNode C) h f := by
  induction h generalizing f fuel with
  | zero => cases fuel <;> rfl
  | succ h ih =>
    obtain ⟨fuel, rfl⟩ : ∃ n, fuel = n + 1 := ⟨fuel - 1, by omega⟩
    have hpos : 0 < 2 ^ h := by positivity
    rw [merkleLevelsFrom, if_pos, rows, pow_succ', pairUp_range, ih (by omega)]
    rw [length_map, length_range, pow_succ]
    omega

section

variable (hlen : bytes.length = 16 * 2 ^ h)

include hlen

lemma merkleLevels_eq : merkleLevels C bytes = rows (hashNode C) h (leafHash C bytes) := by
  have hcount : bytes.length / merkleLeafSize = 2 ^ h := by
    rw [hlen, merkleLeafSize, Nat.mul_div_cancel_left _ (by norm_num)]
  rw [merkleLevels, hcount]
  exact merkleLevelsFrom_range (by simpa using Nat.lt_two_pow_self.le)

lemma drop_merkleLevels (hk : k ≤ h) :
    (merkleLevels C bytes).drop k =
      rows (hashNode C) (h - k) (level (hashNode C) k (leafHash C bytes)) := by
  rw [merkleLevels_eq hlen, ← drop_rows, Nat.add_sub_cancel' hk]

lemma merkleTreeRoot_eq : merkleTreeRoot C bytes = level (hashNode C) h (leafHash C bytes) 0 := by
  rw [merkleTreeRoot, merkleLevels_eq hlen, getLast?_rows]
  rfl

end

/-- The root over a range is a node of the tree. -/
lemma merkleTreeRoot_leafRange (hend : 16 * (2 ^ k * n + 2 ^ k) ≤ bytes.length) :
    merkleTreeRoot C (leafRange bytes (2 ^ k * n) (2 ^ k)) =
      level (hashNode C) k (leafHash C bytes) n := by
  rw [merkleTreeRoot_eq (length_leafRange hend)]
  refine level_congr fun a ha => ?_
  rw [Nat.mul_zero, Nat.zero_add, leafHash, leafHash, merkleLeaf_leafRange ha]

lemma siblingsFrom_rows {f : ℕ → Bytes 32} (hn : n < 2 ^ h) :
    siblingsFrom (rows (hashNode C) h f) n = path (hashNode C) f h n := by
  induction h generalizing f n with
  | zero => rfl
  | succ h ih =>
    obtain ⟨rest, hrows⟩ : ∃ rest, rows (hashNode C) h (parents (hashNode C) f) =
        (List.range (2 ^ h)).map (parents (hashNode C) f) :: rest :=
      head?_eq_some_iff.mp head?_rows
    have hsibling : n ^^^ 1 < 2 ^ (h + 1) := Nat.xor_lt_two_pow hn (Nat.one_lt_two_pow (by omega))
    rw [rows, path, ← ih (by rw [pow_succ] at hn; omega), hrows, siblingsFrom,
      getElem?_map, getElem?_range hsibling]
    rfl

lemma rootAbove_eq {current : Bytes 32} {siblings : List (Bytes 32)} :
    rootAbove C current n siblings = climb (hashNode C) current n siblings := by
  induction siblings generalizing current n with
  | nil => rfl
  | cons sibling rest ih =>
    rw [rootAbove, climb, ← ih, join]
    split <;> rfl

/-! ## What the functions compute -/

variable (C) in
/-- The commitment to bytes of a legal length. -/
def committed (bytes : List UInt8) : MerkleCommitment where
  formatVersion := 1
  leafSize := 16
  byteLen := Fin.ofNat _ bytes.length
  root := bindRoot C (Fin.ofNat _ bytes.length) (merkleTreeRoot C bytes)

lemma merkleCommit_eq_ok_iff {c : MerkleCommitment} :
    merkleCommit C bytes = .ok c ↔ LegalLength bytes.length ∧ c = committed C bytes := by
  rw [merkleCommit, bind_eq_ok, exists_unit, validateDataLen_eq_ok, pure_eq_ok, eq_comm (b := c)]
  rfl

lemma byteLen_committed (hlegal : LegalLength bytes.length) :
    (committed C bytes).byteLen.val = bytes.length :=
  (merkleCommit_eq_ok C (merkleCommit_eq_ok_iff.mpr ⟨hlegal, rfl⟩)).2.2

lemma leafCount_eq {len : ℕ} (hlen : len = 16 * 2 ^ h) : len / merkleLeafSize = 2 ^ h := by
  rw [hlen, merkleLeafSize, Nat.mul_div_cancel_left _ (by norm_num)]

variable {startLeaf leafCount : U32}

section

variable (hlegal : LegalLength bytes.length) (hlen : bytes.length = 16 * 2 ^ h)
  (hnode : IsNode h k n startLeaf.val leafCount.val)

include hlegal hlen hnode

lemma merkleOpenRange_eq :
    merkleOpenRange C bytes startLeaf leafCount = .ok
      { formatVersion := 1
        startLeaf := startLeaf
        leaves := (List.range leafCount.val).map fun i => merkleLeaf bytes (startLeaf.val + i)
        siblings := path (hashNode C)
          (level (hashNode C) k (leafHash C bytes)) (h - k) n } := by
  rw [merkleOpenRange, validateDataLen_eq_ok.mpr hlegal, ok_bind, leafCount_eq hlen,
    (reject_eq_ok (u := ())).mpr (not_not.mpr (isSubtree_iff.mpr ⟨k, n, hnode⟩)), ok_bind,
    hnode.log2_count]
  dsimp only
  rw [hnode.start_div, drop_merkleLevels hlen hnode.height, siblingsFrom_rows hnode.position]
  rfl

lemma merkleOpenSubtree_eq :
    merkleOpenSubtree C bytes startLeaf leafCount = .ok
      { formatVersion := 1
        startLeaf := startLeaf
        leafCount := leafCount
        subtreeRoot := level (hashNode C) k (leafHash C bytes) n
        siblings := path (hashNode C)
          (level (hashNode C) k (leafHash C bytes)) (h - k) n } := by
  have hlevel : (merkleLevels C bytes)[k]? =
      some ((List.range (2 ^ (h - k))).map (level (hashNode C) k (leafHash C bytes))) := by
    rw [← head?_drop, drop_merkleLevels hlen hnode.height, head?_rows]
  rw [merkleOpenSubtree, validateDataLen_eq_ok.mpr hlegal, ok_bind, leafCount_eq hlen,
    (reject_eq_ok (u := ())).mpr (not_not.mpr (isSubtree_iff.mpr ⟨k, n, hnode⟩)), ok_bind,
    hnode.log2_count]
  dsimp only
  rw [hnode.start_div, drop_merkleLevels hlen hnode.height, hlevel,
    siblingsFrom_rows hnode.position, Option.bind_some, getElem?_map,
    getElem?_range hnode.position]
  rfl

end

/-! ## What is accepted -/

lemma MerkleCommitment.validate_eq_ok {c : MerkleCommitment} : c.validate = .ok () ↔
    c.formatVersion = 1 ∧ c.leafSize = 16 ∧ c.root ≠ 0 ∧ LegalLength c.byteLen.val := by
  rw [MerkleCommitment.validate, bind_eq_ok, exists_unit, reject_eq_ok, validateDataLen_eq_ok]
  push Not
  rw [and_assoc, and_assoc]

variable (C) in
/-- The lowest level of the tree over the leaves of a proof. -/
def proofHash (leaves : List (Bytes 16)) (i : ℕ) : Bytes 32 := hashLeaf C (leaves.getD i 0)

lemma map_hashLeaf {leaves : List (Bytes 16)} :
    leaves.map (hashLeaf C) = (List.range leaves.length).map (proofHash C leaves) := by
  refine ext_getElem (by simp) fun i hi _ => ?_
  rw [length_map] at hi
  simp [proofHash, hi]

variable {c : MerkleCommitment}

lemma merkleVerifySubtree_eq_ok {proof : MerkleSubtreeProof} {root : Bytes 32}
    (hlen : c.byteLen.val = 16 * 2 ^ h) :
    merkleVerifySubtree C c proof = .ok root ↔ c.validate = .ok () ∧ proof.formatVersion = 1 ∧
      proof.subtreeRoot ≠ 0 ∧
      (∃ k n, IsNode h k n proof.startLeaf.val proof.leafCount.val ∧ proof.siblings.length = h - k ∧
        bindRoot C c.byteLen (climb (hashNode C) proof.subtreeRoot n proof.siblings) =
          c.root) ∧ proof.subtreeRoot = root := by
  rw [merkleVerifySubtree]
  simp only [bind_eq_ok, exists_unit, reject_eq_ok, pure_eq_ok, leafCount_eq hlen, isSubtree_iff,
    Nat.log2_two_pow, rootAbove_eq, not_or, not_not, ne_eq]
  constructor
  · rintro ⟨hvalid, ⟨hformat, ⟨k, n, hnode⟩, hzero⟩, hsiblings, hroot, rfl⟩
    rw [hnode.log2_count] at hsiblings hroot
    rw [hnode.start_div] at hroot
    exact ⟨hvalid, hformat, hzero, ⟨k, n, hnode, hsiblings, hroot⟩, rfl⟩
  · rintro ⟨hvalid, hformat, hzero, ⟨k, n, hnode, hsiblings, hroot⟩, rfl⟩
    rw [hnode.log2_count, hnode.start_div]
    exact ⟨hvalid, ⟨hformat, ⟨k, n, hnode⟩, hzero⟩, hsiblings, hroot, rfl⟩

lemma merkleVerifyRange_eq_ok {proof : MerkleRangeProof} {opened : List UInt8}
    (hlen : c.byteLen.val = 16 * 2 ^ h) :
    merkleVerifyRange C c proof = .ok opened ↔ c.validate = .ok () ∧ proof.formatVersion = 1 ∧
      (∃ k n, IsNode h k n proof.startLeaf.val proof.leaves.length ∧ proof.siblings.length = h - k ∧
        bindRoot C c.byteLen (climb (hashNode C)
          (level (hashNode C) k (proofHash C proof.leaves) 0) n proof.siblings) =
          c.root) ∧ proof.leaves.flatMap Bytes.toList = opened := by
  have hcurrent : ∀ {k n}, IsNode h k n proof.startLeaf.val proof.leaves.length →
      ((merkleLevelsFrom C (proof.leaves.map (hashLeaf C)).length
        (proof.leaves.map (hashLeaf C))).getLast?.bind fun level => level[0]?).getD 0 =
        level (hashNode C) k (proofHash C proof.leaves) 0 := by
    intro k n hnode
    rw [map_hashLeaf, hnode.count, merkleLevelsFrom_range (by simpa using Nat.lt_two_pow_self.le),
      getLast?_rows]
    rfl
  rw [merkleVerifyRange]
  simp only [bind_eq_ok, exists_unit, reject_eq_ok, pure_eq_ok, leafCount_eq hlen, isSubtree_iff,
    Nat.log2_two_pow, rootAbove_eq, not_or, not_not, ne_eq]
  constructor
  · rintro ⟨hvalid, ⟨hformat, k, n, hnode⟩, hsiblings, hroot, rfl⟩
    rw [hnode.log2_count] at hsiblings hroot
    rw [hnode.start_div, hcurrent hnode] at hroot
    exact ⟨hvalid, hformat, ⟨k, n, hnode, hsiblings, hroot⟩, rfl⟩
  · rintro ⟨hvalid, hformat, ⟨k, n, hnode, hsiblings, hroot⟩, rfl⟩
    rw [hnode.log2_count, hnode.start_div, hcurrent hnode]
    exact ⟨hvalid, ⟨hformat, k, n, hnode⟩, hsiblings, hroot, rfl⟩

/-! ## Inputs of the hash -/

/-- The input of `hash_leaf`, with its domain. -/
def leafCall (leaf : Bytes 16) : String × List UInt8 := ("mutualbackup merkle leaf v1", leaf.toList)

/-- The input of `hash_node`. -/
def nodeCall (pair : Bytes 32 × Bytes 32) : String × List UInt8 :=
  ("mutualbackup merkle node v1", pair.1.toList ++ pair.2.toList)

/-- The input of `bind_root`. -/
def rootCall (byteLen : U32) (root : Bytes 32) : String × List UInt8 :=
  ("mutualbackup merkle root v1",
    beBytes 2 1 ++ beBytes 2 merkleLeafSize ++ beBytes 4 byteLen.val ++ root.toList)

variable (C)

/-- What is hashed to commit to bytes. -/
def commitCalls (bytes : List UInt8) : List (String × List UInt8) :=
  let count := bytes.length / merkleLeafSize
  (List.range count).map (fun i => leafCall (merkleLeaf bytes i)) ++
    (HashTree.inputs (hashNode C) count.log2 (leafHash C bytes) 0).map nodeCall ++
    [rootCall (Fin.ofNat _ bytes.length) (merkleTreeRoot C bytes)]

/-- What is hashed to verify that a node is below a commitment. -/
def walkCalls (byteLen : U32) (current : Bytes 32) (node : ℕ) (siblings : List (Bytes 32)) :
    List (String × List UInt8) :=
  (HashTree.climbInputs (hashNode C) current node siblings).map nodeCall ++
    [rootCall byteLen (HashTree.climb (hashNode C) current node siblings)]

/-- What `merkle_verify_subtree` hashes. -/
def subtreeCalls (c : MerkleCommitment) (proof : MerkleSubtreeProof) : List (String × List UInt8) :=
  walkCalls C c.byteLen proof.subtreeRoot (proof.startLeaf.val / 2 ^ proof.leafCount.val.log2)
    proof.siblings

/-- What `merkle_verify_range` hashes. -/
def rangeCalls (c : MerkleCommitment) (proof : MerkleRangeProof) : List (String × List UInt8) :=
  let subtreeLevel := proof.leaves.length.log2
  let current := HashTree.level (hashNode C) subtreeLevel (proofHash C proof.leaves) 0
  proof.leaves.map leafCall ++
    (HashTree.inputs (hashNode C) subtreeLevel (proofHash C proof.leaves) 0).map nodeCall ++
    walkCalls C c.byteLen current (proof.startLeaf.val / 2 ^ subtreeLevel) proof.siblings

/-- No input of one list collides with an input of the other under the same domain. -/
def NoCollision (xs ys : List (String × List UInt8)) : Prop :=
  ∀ x ∈ xs, ∀ y ∈ ys, x.1 = y.1 → C.deriveKey x.1 x.2 = C.deriveKey y.1 y.2 → x.2 = y.2
  deriving Decidable

variable {C} {xs ys : List (String × List UInt8)}

section

variable (hfree : NoCollision C xs ys)

include hfree

lemma NoCollision.leaf {a b : Bytes 16} (ha : leafCall a ∈ xs) (hb : leafCall b ∈ ys)
    (heq : hashLeaf C a = hashLeaf C b) : a = b := by
  have hbytes := hfree (leafCall a) ha (leafCall b) hb rfl heq
  exact Bytes.toList_injective hbytes

lemma NoCollision.separates {ps qs : List (Bytes 32 × Bytes 32)} (hps : ps.map nodeCall ⊆ xs)
    (hqs : qs.map nodeCall ⊆ ys) : HashTree.Separates (hashNode C) ps qs := by
  intro p hp q hq heq
  have hbytes := hfree (nodeCall p) (hps (mem_map_of_mem hp)) (nodeCall q)
    (hqs (mem_map_of_mem hq)) rfl heq
  rw [nodeCall, nodeCall] at hbytes
  obtain ⟨hleft, hright⟩ := append_inj hbytes (by simp)
  exact Prod.ext (Bytes.toList_injective hleft) (Bytes.toList_injective hright)

lemma NoCollision.root {n m : U32} {a b : Bytes 32} (ha : rootCall n a ∈ xs)
    (hb : rootCall m b ∈ ys) (heq : bindRoot C n a = bindRoot C m b) : n = m ∧ a = b := by
  have hbytes := hfree (rootCall n a) ha (rootCall m b) hb rfl heq
  rw [rootCall, rootCall] at hbytes
  obtain ⟨hhead, hroot⟩ := append_inj hbytes (by simp)
  have hlen := congrArg beValue (append_inj_right hhead rfl)
  rw [beValue_beBytes (n.isLt.trans_eq (by norm_num)),
    beValue_beBytes (m.isLt.trans_eq (by norm_num))] at hlen
  exact ⟨Fin.ext hlen, Bytes.toList_injective hroot⟩

end

section

variable (hlen : bytes.length = 16 * 2 ^ h)

include hlen

lemma leafCall_mem_commitCalls {i : ℕ} (hi : i < 2 ^ h) :
    leafCall (merkleLeaf bytes i) ∈ commitCalls C bytes := by
  rw [commitCalls, leafCount_eq hlen]
  exact mem_append_left _ (mem_append_left _ (mem_map.mpr
    ⟨i, mem_range.mpr hi, rfl⟩))

lemma inputs_subset_commitCalls :
    (inputs (hashNode C) h (leafHash C bytes) 0).map nodeCall ⊆ commitCalls C bytes := by
  rw [commitCalls, leafCount_eq hlen, Nat.log2_two_pow]
  exact fun _ hx => mem_append_left _ (mem_append_right _ hx)

/-- **Binding of a node.** A walk that is accepted against the commitment to bytes started from the
node of their tree and took the siblings of their tree. -/
lemma eq_of_walk (hk : k ≤ h) (hn : n < 2 ^ (h - k)) {current : Bytes 32}
    {siblings : List (Bytes 32)} (hsiblings : siblings.length = h - k)
    (hfree : NoCollision C (walkCalls C (committed C bytes).byteLen current n siblings)
      (commitCalls C bytes)) (hroot : bindRoot C (committed C bytes).byteLen
      (climb (hashNode C) current n siblings) = (committed C bytes).root) :
    current = level (hashNode C) k (leafHash C bytes) n ∧ siblings = path (hashNode C)
        (level (hashNode C) k (leafHash C bytes)) (h - k) n := by
  obtain ⟨-, htree⟩ := hfree.root (mem_append_right _ (mem_singleton_self _))
    (mem_append_right _ (mem_singleton_self _)) hroot
  have htop : n / 2 ^ siblings.length = 0 := Nat.div_eq_of_lt (by rwa [hsiblings])
  have hheight : k + siblings.length = h := by omega
  have hsep : HashTree.Separates (hashNode C) (climbInputs (hashNode C) current n siblings)
      (inputs (hashNode C) h (leafHash C bytes) 0) :=
    hfree.separates (subset_append_left _ _) (inputs_subset_commitCalls hlen)
  rw [← hsiblings]
  refine eq_path_of_climb (hsep.mono (Subset.refl _) ?_) ?_
  · rw [htop, ← hheight]
    exact inputs_level
  · rw [htree, merkleTreeRoot_eq hlen, htop, ← level_add, hheight]

end

/-! ## The openings of a commitment -/

variable (C) in
/-- The hashes of leaves and nodes are never zero. -/
structure SubtreesNonzero : Prop where
  leaf : ∀ leaf, hashLeaf C leaf ≠ 0
  node : ∀ left right, hashNode C left right ≠ 0

variable (C) in
/-- The hashes of the three domains are never zero. -/
structure HashesNonzero : Prop extends SubtreesNonzero C where
  root : ∀ byteLen root, bindRoot C byteLen root ≠ 0

lemma SubtreesNonzero.level (hzero : SubtreesNonzero C) :
    level (hashNode C) k (leafHash C bytes) n ≠ 0 := by
  cases k with
  | zero => exact hzero.leaf _
  | succ k =>
    rw [level_succ']
    exact hzero.node _ _

lemma HashesNonzero.validate_committed (hzero : HashesNonzero C)
    (hlegal : LegalLength bytes.length) : (committed C bytes).validate = .ok () :=
  MerkleCommitment.validate_eq_ok.mpr
    ⟨rfl, rfl, hzero.root _ _, by rwa [byteLen_committed hlegal]⟩

variable (C) in
/-- The openings of a commitment to bytes are accepted, and nothing else is. -/
structure CompleteAndBinding (bytes : List UInt8) (c : MerkleCommitment) : Prop where
  range_opens : ∀ startLeaf leafCount : U32,
    isSubtree startLeaf.val leafCount.val (bytes.length / merkleLeafSize) →
      ∃ proof, merkleOpenRange C bytes startLeaf leafCount = .ok proof ∧
        merkleVerifyRange C c proof = .ok (leafRange bytes startLeaf.val leafCount.val)
  subtree_opens : ∀ startLeaf leafCount : U32,
    isSubtree startLeaf.val leafCount.val (bytes.length / merkleLeafSize) →
      ∃ proof, merkleOpenSubtree C bytes startLeaf leafCount = .ok proof ∧
        merkleVerifySubtree C c proof =
          .ok (merkleTreeRoot C (leafRange bytes startLeaf.val leafCount.val))
  range_binds : ∀ proof opened, merkleVerifyRange C c proof = .ok opened →
    NoCollision C (rangeCalls C c proof) (commitCalls C bytes) →
      opened = leafRange bytes proof.startLeaf.val proof.leaves.length ∧
        ∃ leafCount : U32, leafCount.val = proof.leaves.length ∧
          merkleOpenRange C bytes proof.startLeaf leafCount = .ok proof
  subtree_binds : ∀ proof root, merkleVerifySubtree C c proof = .ok root →
    NoCollision C (subtreeCalls C c proof) (commitCalls C bytes) →
      root = merkleTreeRoot C (leafRange bytes proof.startLeaf.val proof.leafCount.val) ∧
        merkleOpenSubtree C bytes proof.startLeaf proof.leafCount = .ok proof
  unique : ∀ other, merkleCommit C other = .ok c →
    NoCollision C (commitCalls C other) (commitCalls C bytes) → other = bytes

section Parts

lemma climb_committed (hlen : bytes.length = 16 * 2 ^ h) (hnode : IsNode h k n start count) :
    bindRoot C (committed C bytes).byteLen (climb (hashNode C)
      (level (hashNode C) k (leafHash C bytes) n) n (path (hashNode C)
        (level (hashNode C) k (leafHash C bytes)) (h - k) n)) = (committed C bytes).root := by
  rw [climb_path, Nat.div_eq_of_lt hnode.position, ← level_add,
    Nat.add_sub_cancel' hnode.height, ← merkleTreeRoot_eq hlen]
  rfl

variable (hlegal : LegalLength bytes.length) (hlen : bytes.length = 16 * 2 ^ h)

include hlegal hlen

section

variable (hzero : HashesNonzero C) (hnode : IsNode h k n startLeaf.val leafCount.val)

include hzero hnode

lemma range_opens :
    ∃ proof, merkleOpenRange C bytes startLeaf leafCount = .ok proof ∧
      merkleVerifyRange C (committed C bytes) proof =
        .ok (leafRange bytes startLeaf.val leafCount.val) := by
  refine ⟨_, merkleOpenRange_eq hlegal hlen hnode, ?_⟩
  rw [merkleVerifyRange_eq_ok ((byteLen_committed hlegal).trans hlen)]
  have hend := hnode.end_le
  have hcurrent : level (hashNode C) k (proofHash C ((List.range leafCount.val).map
      fun i => merkleLeaf bytes (startLeaf.val + i))) 0 =
        level (hashNode C) k (leafHash C bytes) n := by
    refine level_congr fun a ha => ?_
    rw [Nat.mul_zero, Nat.zero_add, proofHash, leafHash, getD_eq_getElem?_getD,
      getElem?_map, getElem?_range (by rwa [hnode.count]), ← hnode.start]
    rfl
  refine ⟨hzero.validate_committed hlegal, rfl, ⟨k, n, ?_, length_path, ?_⟩,
    flatMap_merkleLeaf (by omega)⟩
  · rwa [length_map, length_range]
  · rw [hcurrent]
    exact climb_committed hlen hnode

lemma subtree_opens :
    ∃ proof, merkleOpenSubtree C bytes startLeaf leafCount = .ok proof ∧
      merkleVerifySubtree C (committed C bytes) proof =
        .ok (merkleTreeRoot C (leafRange bytes startLeaf.val leafCount.val)) := by
  refine ⟨_, merkleOpenSubtree_eq hlegal hlen hnode, ?_⟩
  rw [merkleVerifySubtree_eq_ok ((byteLen_committed hlegal).trans hlen)]
  have hend := hnode.end_le
  refine ⟨hzero.validate_committed hlegal, rfl, hzero.level, ⟨k, n, hnode, length_path,
    climb_committed hlen hnode⟩, ?_⟩
  rw [hnode.start, hnode.count] at hend ⊢
  rw [merkleTreeRoot_leafRange (by omega)]

end

lemma subtree_binds {proof : MerkleSubtreeProof} {root : Bytes 32}
    (haccepted : merkleVerifySubtree C (committed C bytes) proof = .ok root)
    (hfree : NoCollision C (subtreeCalls C (committed C bytes) proof) (commitCalls C bytes)) :
    root = merkleTreeRoot C (leafRange bytes proof.startLeaf.val proof.leafCount.val) ∧
      merkleOpenSubtree C bytes proof.startLeaf proof.leafCount = .ok proof := by
  obtain ⟨-, hformat, -, ⟨k, n, hnode, hsiblings, hroot⟩, rfl⟩ :=
    (merkleVerifySubtree_eq_ok ((byteLen_committed hlegal).trans hlen)).mp haccepted
  rw [subtreeCalls, hnode.log2_count, hnode.start_div] at hfree
  obtain ⟨hcurrent, hpath⟩ := eq_of_walk hlen hnode.height hnode.position hsiblings hfree hroot
  have hend := hnode.end_le
  constructor
  · rw [hnode.start, hnode.count] at hend ⊢
    rw [merkleTreeRoot_leafRange (by omega), hcurrent]
  · rw [merkleOpenSubtree_eq hlegal hlen hnode, ← hcurrent, ← hpath, ← hformat]

lemma range_binds {proof : MerkleRangeProof} {opened : List UInt8}
    (haccepted : merkleVerifyRange C (committed C bytes) proof = .ok opened)
    (hfree : NoCollision C (rangeCalls C (committed C bytes) proof) (commitCalls C bytes)) :
    opened = leafRange bytes proof.startLeaf.val proof.leaves.length ∧
      ∃ leafCount : U32, leafCount.val = proof.leaves.length ∧
        merkleOpenRange C bytes proof.startLeaf leafCount = .ok proof := by
  obtain ⟨-, hformat, ⟨k, n, hnode, hsiblings, hroot⟩, rfl⟩ :=
    (merkleVerifyRange_eq_ok ((byteLen_committed hlegal).trans hlen)).mp haccepted
  rw [rangeCalls, hnode.log2_count, hnode.start_div] at hfree
  have hend := hnode.end_le
  obtain ⟨hcurrent, hpath⟩ := eq_of_walk hlen hnode.height hnode.position hsiblings
    (fun x hx => hfree x (mem_append_right _ hx)) hroot
  -- The tree over the leaves of the proof has the root of the range, so it has its leaves.
  have hsep : HashTree.Separates (hashNode C)
      (inputs (hashNode C) k (proofHash C proof.leaves) 0)
      (inputs (hashNode C) k (leafHash C bytes) n) := by
    refine hfree.separates
      (fun x hx => mem_append_left _ (mem_append_right _ hx)) fun x hx => ?_
    have hsub : inputs (hashNode C) k (leafHash C bytes) n ⊆
        inputs (hashNode C) (k + (h - k)) (leafHash C bytes) (n / 2 ^ (h - k)) :=
      inputs_subset
    rw [Nat.add_sub_cancel' hnode.height, Nat.div_eq_of_lt hnode.position] at hsub
    exact inputs_subset_commitCalls hlen (map_subset _ hsub hx)
  have hleaves : proof.leaves = (List.range proof.leaves.length).map fun i =>
      merkleLeaf bytes (proof.startLeaf.val + i) := by
    refine ext_getElem (by simp) fun i hi _ => ?_
    have hhash := eq_of_level_eq hsep hcurrent (a := i) (by rwa [← hnode.count])
    rw [Nat.mul_zero, Nat.zero_add, proofHash, leafHash, ← hnode.start,
      getD_eq_getElem _ _ hi] at hhash
    rw [getElem_map, getElem_range]
    exact hfree.leaf
      (mem_append_left _ (mem_append_left _ (mem_map_of_mem (getElem_mem hi))))
      (leafCall_mem_commitCalls hlen (by omega)) hhash
  have hlt : proof.leaves.length < 2 ^ 32 := by
    have hbytes := hlegal.2.1
    omega
  refine ⟨?_, ⟨proof.leaves.length, hlt⟩, rfl, ?_⟩
  · rw [← flatMap_merkleLeaf (by omega), ← hleaves]
  · rw [merkleOpenRange_eq hlegal hlen hnode, ← hpath, ← hleaves, ← hformat]

lemma commitment_unique {other : List UInt8}
    (hcommit : merkleCommit C other = .ok (committed C bytes))
    (hfree : NoCollision C (commitCalls C other) (commitCalls C bytes)) : other = bytes := by
  obtain ⟨hlegal', heq⟩ := merkleCommit_eq_ok_iff.mp hcommit
  have hbyteLen := congrArg (fun c : MerkleCommitment => c.byteLen.val) heq
  have hroot := congrArg MerkleCommitment.root heq
  have hlen' : other.length = 16 * 2 ^ h := by
    rw [← hlen, ← byteLen_committed (C := C) hlegal, ← byteLen_committed (C := C) hlegal']
    exact hbyteLen.symm
  obtain ⟨-, htree⟩ := hfree.root (mem_append_right _ (mem_singleton_self _))
    (mem_append_right _ (mem_singleton_self _)) hroot.symm
  rw [merkleTreeRoot_eq hlen, merkleTreeRoot_eq hlen'] at htree
  have hsep := hfree.separates (inputs_subset_commitCalls hlen') (inputs_subset_commitCalls hlen)
  refine eq_of_merkleLeaf_eq hlen' hlen fun i hi => ?_
  have hhash := eq_of_level_eq hsep htree hi
  rw [Nat.mul_zero, Nat.zero_add] at hhash
  exact hfree.leaf (leafCall_mem_commitCalls hlen' hi) (leafCall_mem_commitCalls hlen hi) hhash

end Parts

/-- **Openings are complete and binding.** Every aligned range of a commitment opens to its bytes
and to the root over them; whatever a verifier accepts against the commitment, of any shape, is the
honest opening of its range, so that it returns those bytes or that root; and the commitment is to
these bytes only. -/
theorem merkle_openings_complete_and_binding (hzero : HashesNonzero C) (bytes : List UInt8)
    (hlegal : LegalLength bytes.length) :
    ∃ c, merkleCommit C bytes = .ok c ∧ CompleteAndBinding C bytes c := by
  obtain ⟨h, -, hlen⟩ := legalLength_iff.mp hlegal
  refine ⟨committed C bytes, merkleCommit_eq_ok_iff.mpr ⟨hlegal, rfl⟩, ?_, ?_, ?_, ?_, ?_⟩
  · intro startLeaf leafCount hrange
    rw [leafCount_eq hlen, isSubtree_iff] at hrange
    obtain ⟨k, n, hnode⟩ := hrange
    exact range_opens hlegal hlen hzero hnode
  · intro startLeaf leafCount hrange
    rw [leafCount_eq hlen, isSubtree_iff] at hrange
    obtain ⟨k, n, hnode⟩ := hrange
    exact subtree_opens hlegal hlen hzero hnode
  · exact fun _ _ => range_binds hlegal hlen
  · exact fun _ _ => subtree_binds hlegal hlen
  · exact fun _ => commitment_unique hlegal hlen

end Tree

lemma hashesNonzero_transparent : HashesNonzero .transparent where
  leaf _ := digest_ne_zero _
  node _ _ := digest_ne_zero _
  root _ _ := digest_ne_zero _

/-- Two leaves, of which the second one is opened. -/
theorem merkle_openings_complete_and_binding_two_leaves :
    let bytes := (List.range 32).map UInt8.ofNat
    (∃ c, merkleCommit .transparent bytes = .ok c ∧ CompleteAndBinding .transparent bytes c) ∧
      ∀ c ∈ (merkleCommit .transparent bytes).toOption,
        ∀ proof ∈ (merkleOpenRange .transparent bytes 1 1).toOption,
          merkleVerifyRange .transparent c proof = .ok (leafRange bytes 1 1) ∧
          NoCollision .transparent (rangeCalls .transparent c proof)
            (commitCalls .transparent bytes) := by
  refine ⟨merkle_openings_complete_and_binding hashesNonzero_transparent _ ?_, by decide +kernel⟩
  exact ⟨by decide, by decide, 5, by decide⟩

end MutualBackup

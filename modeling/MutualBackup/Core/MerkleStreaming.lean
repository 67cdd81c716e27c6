import MutualBackup.Core.MerkleOpening

/-!
# Commitments without the bytes

Two ways in which `range.rs` computes a commitment or an opening without the tree over all bytes:
`MerkleSubtreeAccumulator` composes it from the roots of consecutive blocks, and the functions for
zeros compute it from the length alone.  `merkle_streaming_equals_materialised` says that both give
what `merkle_commit` and `merkle_open_range` give on the bytes, and that the accumulator accepts one
number of roots only.

The accumulator is a binary counter.  After any pushes it has failed for good, or it holds the
subtrees that the number of pushes so far says (`MerkleSubtreeAccumulator.Holds`).
-/

namespace MutualBackup

open Framework List HashTree MerkleSubtreeAccumulator

/-! ## The accumulator -/

namespace MerkleSubtreeAccumulator

variable {C : Crypto} {a : MerkleSubtreeAccumulator} {root : Bytes 32} {roots : List (Bytes 32)}

variable (C) in
/-- All pushes, whatever each of them returns. -/
def pushes (a : MerkleSubtreeAccumulator) (roots : List (Bytes 32)) : MerkleSubtreeAccumulator :=
  roots.foldl (fun a root => (a.push C root).1) a

lemma pushes_append_singleton : a.pushes C (roots ++ [root]) = ((a.pushes C roots).push C root).1 :=
  foldl_append

variable (C) in
/-- The roots so far were taken, and their subtrees are pending. -/
structure Holds (roots : List (Bytes 32)) (a : MerkleSubtreeAccumulator) : Prop where
  failed : a.failed = false
  consumed : a.consumed = roots.length
  room : roots.length ≤ a.width
  small : a.width ≤ 2 ^ maxMerkleHeight
  slots : a.frontier.length = maxMerkleHeight + 1
  pending : HashTree.Pending (hashNode C) (fun i => roots.getD i 0) roots.length a.frontier

/-- **A push that fits.** The slots it takes are occupied. -/
lemma Holds.push (h : Holds C roots a) (hroot : root ≠ 0) (hroom : roots.length < a.width) :
    ∃ a', a.push C root = (a', .ok ()) ∧ Holds C (roots ++ [root]) a' ∧ a'.width = a.width ∧
      a'.byteLen = a.byteLen := by
  have hnext : HashTree.Pending (hashNode C) (fun i => (roots ++ [root]).getD i 0) roots.length
      a.frontier := by
    refine h.pending.congr fun i hi => ?_
    rw [getD_append _ _ _ _ hi]
  have hfits : roots.length + 1 < 2 ^ a.frontier.length := by
    have := h.small
    rw [h.slots, pow_succ]
    omega
  obtain ⟨frontier, hcarry, hslots, hpending⟩ := hnext.carry hfits
  have hlast : (roots ++ [root]).getD roots.length 0 = root := by simp
  rw [hlast] at hcarry
  refine ⟨{ a with frontier, consumed := a.consumed + 1 }, ?_, ⟨h.failed, ?_, ?_, h.small,
    hslots.trans h.slots, ?_⟩, rfl, rfl⟩
  · have hopen : ¬ (a.failed = true ∨ a.consumed = a.width ∨ root = 0) := by
      rw [h.failed, h.consumed]
      simpa [hroot] using hroom.ne
    rw [MerkleSubtreeAccumulator.push, if_neg hopen, h.consumed, hcarry]
  · rw [length_append, length_singleton, h.consumed]
  · rw [length_append, length_singleton]
    exact hroom
  · rwa [length_append, length_singleton]

/-- A push is refused for good, or it takes the root. -/
lemma push_cases (h : a.failed = true ∨ Holds C roots a) (root : Bytes 32) :
    a.push C root = ({ a with failed := true }, fail .invalidProof) ∨
      ∃ a', a.push C root = (a', .ok ()) ∧ Holds C (roots ++ [root]) a' ∧ a'.width = a.width ∧
        a'.byteLen = a.byteLen := by
  by_cases hrefused : a.failed = true ∨ a.consumed = a.width ∨ root = 0
  · exact .inl (if_pos hrefused)
  · push Not at hrefused
    have hholds := h.resolve_left hrefused.1
    refine .inr (hholds.push hrefused.2.2 (lt_of_le_of_ne hholds.room ?_))
    rw [← hholds.consumed]
    exact hrefused.2.1

section

variable (h : Holds C [] a)

include h

/-- After any pushes the accumulator has failed, or it holds their subtrees. -/
lemma pushes_spec (roots : List (Bytes 32)) :
    (a.pushes C roots).width = a.width ∧ (a.pushes C roots).byteLen = a.byteLen ∧
      ((a.pushes C roots).failed = true ∨ Holds C roots (a.pushes C roots)) := by
  induction roots using List.reverseRecOn with
  | nil => exact ⟨rfl, rfl, .inr h⟩
  | append_singleton roots root ih =>
    obtain ⟨hwidth, hbyteLen, hstate⟩ := ih
    rw [pushes_append_singleton]
    rcases push_cases hstate root with hpush | ⟨a', hpush, hholds, hwidth', hbyteLen'⟩
    · rw [hpush]
      exact ⟨hwidth, hbyteLen, .inl rfl⟩
    · rw [hpush]
      exact ⟨hwidth'.trans hwidth, hbyteLen'.trans hbyteLen, .inr hholds⟩

/-- As long as there is room, roots that are not zero are taken. -/
lemma holds_pushes (hroots : ∀ root ∈ roots, root ≠ 0) (hroom : roots.length ≤ a.width) :
    Holds C roots (a.pushes C roots) := by
  induction roots using List.reverseRecOn with
  | nil => exact h
  | append_singleton roots root ih =>
    rw [length_append, length_singleton] at hroom
    have hholds := ih (fun r hr => hroots r (mem_append_left _ hr)) (by omega)
    obtain ⟨hwidth, -, -⟩ := pushes_spec h roots
    obtain ⟨a', hpush, hholds', -⟩ := hholds.push
      (hroots root (mem_append_right _ (mem_singleton_self _))) (by omega)
    rw [pushes_append_singleton, hpush]
    exact hholds'

/-- No push finds a slot empty that it takes to be occupied. -/
lemma noOverflow_push (roots : List (Bytes 32)) (root : Bytes 32) :
    NoOverflow ((a.pushes C roots).push C root).2 := by
  rcases push_cases (pushes_spec h roots).2.2 root with hpush | ⟨a', hpush, -⟩
  · rw [hpush]
    exact noOverflow_fail _
  · rw [hpush]
    exact noOverflow_ok _

/-- The end of a stream of another length than the accumulator was made for. -/
lemma finish_of_length_ne (hlen : roots.length ≠ a.width) :
    (a.pushes C roots).finish C = fail .invalidProof := by
  obtain ⟨hwidth, -, hstate⟩ := pushes_spec h roots
  have hbad : (a.pushes C roots).failed = true ∨
      (a.pushes C roots).consumed ≠ (a.pushes C roots).width := by
    refine hstate.imp_right fun hholds => ?_
    rwa [hholds.consumed, hwidth]
  rw [finish, reject, if_pos hbad]
  rfl

end

/-- The end of a stream of the length that the accumulator was made for. -/
lemma Holds.finish {m : ℕ} (h : Holds C roots a) (hlen : roots.length = a.width)
    (hwidth : a.width = 2 ^ m) : a.finish C = .ok
      { formatVersion := 1
        leafSize := 16
        byteLen := a.byteLen
        root := bindRoot C a.byteLen
          (level (hashNode C) m (fun i => roots.getD i 0) 0) } := by
  have hm : m ≤ maxMerkleHeight :=
    (Nat.pow_le_pow_iff_right (by norm_num : 1 < 2)).mp (hwidth ▸ h.small)
  have hpending := h.pending
  rw [hlen, hwidth] at hpending
  have hslot := hpending.root (by
    rw [h.slots]
    omega)
  have hgood : ¬ (a.failed = true ∨ a.consumed ≠ a.width) := by
    rw [h.failed, h.consumed, hlen]
    simp
  rw [MerkleSubtreeAccumulator.finish, reject, if_neg hgood, hwidth, Nat.log2_two_pow, hslot]
  rfl

/-- A new accumulator. -/
lemma new_eq {byteLen subtreeByteLen : U32} {h k : ℕ} (hh : h ≤ 18)
    (hlen : byteLen.val = 16 * 2 ^ h) (hsub : subtreeByteLen.val = 16 * 2 ^ k) (hk : k ≤ h) :
    ∃ a, new byteLen subtreeByteLen = .ok a ∧ a.byteLen = byteLen ∧ a.width = 2 ^ (h - k) ∧
      Holds C [] a := by
  have hwidth : byteLen.val / subtreeByteLen.val = 2 ^ (h - k) := by
    rw [hlen, hsub, Nat.mul_div_mul_left _ _ (by norm_num), Nat.pow_div hk (by norm_num)]
  have hle : ¬ byteLen < subtreeByteLen := by
    rw [Fin.lt_def, hlen, hsub, not_lt]
    exact Nat.mul_le_mul_left _ (Nat.pow_le_pow_right (by norm_num) hk)
  refine ⟨⟨byteLen, byteLen.val / subtreeByteLen.val, 0, replicate (maxMerkleHeight + 1) none,
    false⟩, ?_, rfl, hwidth, rfl, rfl, Nat.zero_le _, ?_, length_replicate,
    pending_zero⟩
  · rw [new, validateDataLen_eq_ok.mpr (legalLength_iff.mpr ⟨h, hh, hlen⟩), ok_bind,
      validateDataLen_eq_ok.mpr (legalLength_iff.mpr ⟨k, hk.trans hh, hsub⟩), ok_bind, reject,
      if_neg hle]
    rfl
  · rw [hwidth]
    exact Nat.pow_le_pow_right (by norm_num) ((Nat.sub_le _ _).trans hh)

end MerkleSubtreeAccumulator

section Streams

variable {C : Crypto} {byteLen subtreeByteLen : U32} {bytes : List UInt8} {h k : ℕ}

/-- `merkle_commit_subtrees` is all pushes and the end: a refused push shows at the end. -/
lemma merkleCommitSubtrees_eq {a : MerkleSubtreeAccumulator}
    (hnew : MerkleSubtreeAccumulator.new byteLen subtreeByteLen = .ok a)
    (ha : a.Holds C []) (roots : List (Bytes 32)) :
    merkleCommitSubtrees C byteLen subtreeByteLen roots = (a.pushes C roots).finish C := by
  have hfold : roots.foldlM (fun a root => settled (a.push C root)) a =
      if (a.pushes C roots).failed then fail .invalidProof else .ok (a.pushes C roots) := by
    induction roots using List.reverseRecOn with
    | nil =>
      rw [MerkleSubtreeAccumulator.pushes, foldl_nil, ha.failed]
      rfl
    | append_singleton roots root ih =>
      rw [foldlM_append, ih, pushes_append_singleton]
      split
      · rename_i hfailed
        have hpush : (a.pushes C roots).push C root =
            ({ a.pushes C roots with failed := true }, fail .invalidProof) :=
          if_pos (.inl hfailed)
        rw [hpush, if_pos rfl]
        rfl
      · rename_i hfailed
        rw [ok_bind, foldlM_cons]
        rcases push_cases
          (pushes_spec ha roots).2.2 root
          with hpush | ⟨a', hpush, hholds, -⟩
        · rw [hpush, if_pos rfl]
          rfl
        · rw [hpush, if_neg (by rw [hholds.failed]; simp)]
          rfl
  rw [merkleCommitSubtrees, hnew, ok_bind, hfold]
  split
  · rename_i hfailed
    rw [MerkleSubtreeAccumulator.finish, reject, if_pos (.inl hfailed)]
    rfl
  · rfl

variable (C) in
/-- The roots over consecutive blocks of a length. -/
def blockRoots (bytes : List UInt8) (blockLen : ℕ) : List (Bytes 32) :=
  (List.range (bytes.length / blockLen)).map fun i =>
    merkleTreeRoot C ((bytes.drop (blockLen * i)).take blockLen)

/-- The roots over blocks are a level of the tree. -/
lemma blockRoots_eq (hlen : bytes.length = 16 * 2 ^ h) (hk : k ≤ h) :
    blockRoots C bytes (16 * 2 ^ k) = (List.range (2 ^ (h - k))).map
      (level (hashNode C) k (leafHash C bytes)) := by
  have hcount : bytes.length / (16 * 2 ^ k) = 2 ^ (h - k) := by
    rw [hlen, Nat.mul_div_mul_left _ _ (by norm_num), Nat.pow_div hk (by norm_num)]
  rw [blockRoots, hcount]
  refine map_congr_left fun i hi => ?_
  have hend : 2 ^ k * i + 2 ^ k ≤ 2 ^ h := by
    rw [← Nat.mul_succ, ← Nat.add_sub_cancel' hk, pow_add]
    exact Nat.mul_le_mul_left _ (mem_range.mp hi)
  rw [← merkleTreeRoot_leafRange (by omega), leafRange, Nat.mul_assoc]

/-- The accumulator over the roots of all blocks. -/
lemma commit_blockRoots (hzero : SubtreesNonzero C) {a : MerkleSubtreeAccumulator}
    (ha : a.Holds C []) (hwidth : a.width = 2 ^ (h - k)) (hbyteLen : a.byteLen.val = bytes.length)
    (hlegal : LegalLength bytes.length) (hlen : bytes.length = 16 * 2 ^ h) (hk : k ≤ h) :
    (∀ before root after, blockRoots C bytes (16 * 2 ^ k) = before ++ root :: after →
      ((a.pushes C before).push C root).2 = .ok ()) ∧
    (a.pushes C (blockRoots C bytes (16 * 2 ^ k))).finish C = merkleCommit C bytes := by
  have hroots := blockRoots_eq (C := C) hlen hk
  have hcount : (blockRoots C bytes (16 * 2 ^ k)).length = a.width := by
    rw [hroots, length_map, length_range, hwidth]
  have hne : ∀ root ∈ blockRoots C bytes (16 * 2 ^ k), root ≠ 0 := by
    intro root hroot
    rw [hroots] at hroot
    obtain ⟨i, -, rfl⟩ := mem_map.mp hroot
    exact hzero.level
  constructor
  · intro before root after hsplit
    rw [hsplit] at hcount hne
    have hroom : before.length < a.width := by
      rw [← hcount, length_append, length_cons]
      omega
    have hholds := holds_pushes ha
      (fun r hr => hne r (mem_append_left _ hr)) hroom.le
    obtain ⟨hsame, -, -⟩ := pushes_spec ha before
    obtain ⟨a', hpush, -⟩ := hholds.push (hne root (mem_append_right _ (mem_cons_self ..)))
      (hsame ▸ hroom)
    rw [hpush]
  · have hholds := holds_pushes ha hne hcount.le
    obtain ⟨hsame, hbytes, -⟩ :=
      pushes_spec ha (blockRoots C bytes (16 * 2 ^ k))
    have hlevel : level (hashNode C) (h - k)
        (fun i => (blockRoots C bytes (16 * 2 ^ k)).getD i 0) 0 = merkleTreeRoot C bytes := by
      rw [merkleTreeRoot_eq hlen]
      conv_rhs => rw [← Nat.add_sub_cancel' hk, level_add]
      refine level_congr fun i hi => ?_
      rw [Nat.mul_zero, Nat.zero_add, hroots, getD_eq_getElem?_getD, getElem?_map,
        getElem?_range hi]
      rfl
    have hval : a.byteLen = Fin.ofNat _ bytes.length :=
      Fin.ext (hbyteLen.trans (byteLen_committed (C := C) hlegal).symm)
    rw [hholds.finish (hcount.trans hsame.symm) (hsame.trans hwidth), hlevel, hbytes, hval,
      merkleCommit_eq_ok_iff.mpr ⟨hlegal, rfl⟩]
    rfl

/-! ## Zeros -/

lemma merkleLeaf_replicate {n i : ℕ} (hi : 16 * (i + 1) ≤ n) :
    merkleLeaf (replicate n 0) i = 0 := by
  rw [merkleLeaf, merkleLeafSize, drop_replicate, take_replicate,
    show min 16 (n - 16 * i) = 16 by omega]
  decide

lemma level_replicate {n i : ℕ} (hn : n = 16 * 2 ^ h) (hi : 2 ^ k * i + 2 ^ k ≤ 2 ^ h) :
    level (hashNode C) k (leafHash C (replicate n 0)) i =
      (fun r => hashNode C r r)^[k] (hashLeaf C 0) := by
  refine level_of_eq fun a ha => ?_
  rw [leafHash, merkleLeaf_replicate (by omega)]

lemma merkleZeroCommitment_eq (byteLen : U32) :
    merkleZeroCommitment C byteLen = merkleCommit C (replicate byteLen.val 0) := by
  rcases hvalid : validateDataLen byteLen.val with e | u
  · rw [merkleZeroCommitment, merkleZeroSubtreeRoot, merkleCommit, length_replicate, hvalid]
    rfl
  · have hlegal := validateDataLen_eq_ok.mp hvalid
    obtain ⟨h, -, hlen⟩ := legalLength_iff.mp hlegal
    have hval : Fin.ofNat (2 ^ 32) byteLen.val = byteLen := Fin.ext (Nat.mod_eq_of_lt byteLen.isLt)
    rw [merkleZeroCommitment, merkleZeroSubtreeRoot, hvalid, leafCount_eq hlen, Nat.log2_two_pow,
      merkleCommit_eq_ok_iff.mpr ⟨by rwa [length_replicate], rfl⟩, committed,
      merkleTreeRoot_eq (length_replicate.trans hlen),
      level_replicate hlen (by simp), length_replicate, hval]
    rfl

lemma zeroSiblings_eq {level m : ℕ} : zeroSiblings C level m =
    ((List.range (m - level)).map fun j => (fun r => hashNode C r r)^[j + level] (hashLeaf C 0),
      (fun r => hashNode C r r)^[m] (hashLeaf C 0)) := by
  induction m with
  | zero => simp [zeroSiblings]
  | succ m ih =>
    have hstep : zeroSiblings C level (m + 1) =
        (if level ≤ m then (zeroSiblings C level m).1 ++ [(zeroSiblings C level m).2]
          else (zeroSiblings C level m).1,
          hashNode C (zeroSiblings C level m).2 (zeroSiblings C level m).2) := by
      rw [zeroSiblings, range_succ, foldl_append]
      rfl
    rw [hstep, ih, Function.iterate_succ_apply', Prod.mk.injEq]
    refine ⟨?_, rfl⟩
    split
    · rename_i hle
      rw [Nat.succ_sub hle, range_succ, map_append, map_singleton, Nat.sub_add_cancel hle]
    · rename_i hlt
      rw [show m + 1 - level = m - level by omega]

lemma merkleOpenZeroRange_eq (byteLen startLeaf leafCount : U32) :
    merkleOpenZeroRange C byteLen startLeaf leafCount =
      merkleOpenRange C (replicate byteLen.val 0) startLeaf leafCount := by
  rcases hvalid : validateDataLen byteLen.val with e | u
  · rw [merkleOpenZeroRange, merkleOpenRange, length_replicate, hvalid]
    rfl
  · have hlegal := validateDataLen_eq_ok.mp hvalid
    obtain ⟨h, -, hlen⟩ := legalLength_iff.mp hlegal
    have hlen' : (replicate byteLen.val (0 : UInt8)).length = 16 * 2 ^ h :=
      length_replicate.trans hlen
    by_cases hrange : isSubtree startLeaf.val leafCount.val (2 ^ h)
    · obtain ⟨k, n, hnode⟩ := isSubtree_iff.mp hrange
      have hleaves : (List.range leafCount.val).map (fun i =>
          merkleLeaf (replicate byteLen.val 0) (startLeaf.val + i)) =
            replicate leafCount.val 0 := by
        have hend := hnode.end_le
        refine eq_replicate_iff.mpr ⟨by simp, fun leaf hleaf => ?_⟩
        obtain ⟨i, hi, rfl⟩ := mem_map.mp hleaf
        have := mem_range.mp hi
        exact merkleLeaf_replicate (by omega)
      have hlevel : ∀ a < 2 ^ (h - k), level (hashNode C) k
          (leafHash C (replicate byteLen.val 0)) a =
            (fun r => hashNode C r r)^[k] (hashLeaf C 0) := by
        intro a ha
        refine level_replicate hlen ?_
        rw [← Nat.mul_succ, ← Nat.add_sub_cancel' hnode.height, pow_add]
        exact Nat.mul_le_mul_left _ ha
      rw [merkleOpenRange_eq (by rwa [length_replicate]) hlen' hnode, hleaves,
        path_of_eq hlevel hnode.position, merkleOpenZeroRange, hvalid, ok_bind,
        leafCount_eq hlen, (reject_eq_ok (u := ())).mpr (not_not.mpr hrange), ok_bind,
        Nat.log2_two_pow, hnode.log2_count]
      simp only [zeroSiblings_eq, Function.iterate_add_apply]
      rfl
    · rw [merkleOpenZeroRange, merkleOpenRange, length_replicate, hvalid, ok_bind, ok_bind,
        leafCount_eq hlen, reject, if_pos hrange]
      rfl

end Streams

/-! ## The result -/

/-- **Streams and zeros.** Composing the roots of consecutive blocks gives the commitment to all
bytes, with every push accepted; any other number of roots fails at the end, whatever they are; no
push of any run takes an empty slot; and commitments and openings of zeros are those of an allocated
buffer. -/
theorem merkle_streaming_equals_materialised {C : Crypto} (hzero : SubtreesNonzero C) :
    (∀ (byteLen subtreeByteLen : U32), LegalLength byteLen.val → LegalLength subtreeByteLen.val →
      subtreeByteLen ≤ byteLen →
      ∃ a, MerkleSubtreeAccumulator.new byteLen subtreeByteLen = .ok a ∧
        (∀ bytes : List UInt8, bytes.length = byteLen.val → ∃ c, merkleCommit C bytes = .ok c ∧
            (∀ before root after, blockRoots C bytes subtreeByteLen.val = before ++ root :: after →
              ((a.pushes C before).push C root).2 = .ok ()) ∧
            (a.pushes C (blockRoots C bytes subtreeByteLen.val)).finish C = .ok c ∧
            merkleCommitSubtrees C byteLen subtreeByteLen
              (blockRoots C bytes subtreeByteLen.val) = .ok c) ∧
        (∀ roots, roots.length ≠ byteLen.val / subtreeByteLen.val →
          (a.pushes C roots).finish C = fail .invalidProof ∧
          merkleCommitSubtrees C byteLen subtreeByteLen roots = fail .invalidProof) ∧
        ∀ roots root, NoOverflow ((a.pushes C roots).push C root).2) ∧
    (∀ byteLen : U32,
      merkleZeroCommitment C byteLen = merkleCommit C (List.replicate byteLen.val 0)) ∧
    ∀ byteLen startLeaf leafCount : U32, merkleOpenZeroRange C byteLen startLeaf leafCount =
      merkleOpenRange C (List.replicate byteLen.val 0) startLeaf leafCount := by
  refine ⟨?_, merkleZeroCommitment_eq, merkleOpenZeroRange_eq⟩
  intro byteLen subtreeByteLen hlegal hsublegal hle
  obtain ⟨h, hh, hlen⟩ := legalLength_iff.mp hlegal
  obtain ⟨k, -, hsub⟩ := legalLength_iff.mp hsublegal
  have hk : k ≤ h := by
    rw [Fin.le_def, hlen, hsub] at hle
    exact (Nat.pow_le_pow_iff_right (by norm_num : 1 < 2)).mp (by omega)
  obtain ⟨a, hnew, hbyteLen, hwidth, ha⟩ := new_eq (C := C) hh hlen hsub hk
  have hcount : byteLen.val / subtreeByteLen.val = a.width := by
    rw [hlen, hsub, Nat.mul_div_mul_left _ _ (by norm_num), Nat.pow_div hk (by norm_num), hwidth]
  refine ⟨a, hnew, ?_, ?_, noOverflow_push ha⟩
  · intro bytes hbytes
    have hlegal' : LegalLength bytes.length := by rwa [hbytes]
    have hcommit := merkleCommit_eq_ok_iff (C := C).mpr ⟨hlegal', rfl⟩
    obtain ⟨hpushes, hfinish⟩ := commit_blockRoots hzero ha hwidth
      (by rw [hbyteLen, hbytes]) hlegal' (hbytes.trans hlen) hk
    rw [hsub, merkleCommitSubtrees_eq hnew ha, hfinish]
    exact ⟨_, hcommit, hpushes, hcommit, hcommit⟩
  · intro roots hroots
    have hfinish := finish_of_length_ne ha (hcount ▸ hroots)
    rw [merkleCommitSubtrees_eq hnew ha]
    exact ⟨hfinish, hfinish⟩

/-- The transparent hashes are such hashes: pushing the roots of the two halves of 64 bytes gives
the commitment to them. -/
theorem merkle_streaming_equals_materialised_transparent :
    SubtreesNonzero .transparent ∧ (∃ a c, MerkleSubtreeAccumulator.new 64 32 = .ok a ∧
        merkleCommit .transparent (replicate 32 1 ++ replicate 32 2) = .ok c ∧
        (a.pushes .transparent (blockRoots .transparent (replicate 32 1 ++ replicate 32 2)
          32)).finish .transparent = .ok c) ∧
      merkleZeroCommitment .transparent 32 = merkleCommit .transparent (List.replicate 32 0) := by
  have hnonzero := hashesNonzero_transparent.toSubtreesNonzero
  obtain ⟨hstream, hzeros, -⟩ := merkle_streaming_equals_materialised hnonzero
  obtain ⟨a, hnew, hbytes, -⟩ := hstream 64 32
    (legalLength_iff.mpr ⟨2, by decide⟩) (legalLength_iff.mpr ⟨1, by decide⟩) (by decide)
  obtain ⟨c, hcommit, -, hfinish, -⟩ := hbytes (replicate 32 1 ++ replicate 32 2) rfl
  exact ⟨hnonzero, ⟨a, c, hnew, hcommit, hfinish⟩, hzeros 32⟩

end MutualBackup

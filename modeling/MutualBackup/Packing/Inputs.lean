import MutualBackup.Packing.Incremental

/-!
# The chunks of the inputs

What `input_chunks` accepts and returns: objects with different keys, each cut into the parts of
the slot size, in the order of the chunks (`inputChunks_eq_ok`).  The map of the wanted chunks
answers with exactly these (`get_desiredOf`).
-/

namespace MutualBackup

open Framework List

variable {C : Crypto} {profile : PackingProfile}

namespace PackingInput

variable (C profile) (input : PackingInput)

/-- The evidence of a chunk, for an input with a commitment. -/
def evidence (index : U32) : Option PackedSourceAuthentication :=
  (openChunk C profile input index).toOption.join

/-- The chunk of a part. -/
def part (entry : List UInt8 × ℕ) : InputChunk :=
  makeChunk C profile input (Fin.ofNat _ entry.2) entry.1
    (input.evidence C profile (Fin.ofNat _ entry.2))

/-- The chunks of an input. -/
def parts : List InputChunk :=
  (chunks profile.slotSize.val input.bytes).zipIdx.map (input.part C profile)

/-- A part that the inner loop accepts, by its index. -/
def PartShape (index : ℕ) : Prop := index < 2 ^ 32 ∧ index * profile.slotLeaves < 2 ^ 32 ∧
    Succeeds (openChunk C profile input (Fin.ofNat _ index))

/-- An input that the outer loop accepts. -/
structure Shape : Prop where
  owner : input.owner ≠ ⟨0⟩
  protectedRoot : input.protectedRoot ≠ 0
  objectId : input.objectId ≠ 0
  bytes : input.bytes ≠ []
  commitment : ∀ commitment ∈ input.sourceCommitment, merkleCommit C input.bytes = .ok commitment
  parts : ∀ index < (chunks profile.slotSize.val input.bytes).length,
    input.PartShape C profile index

end PackingInput

variable {input : PackingInput}

variable {acc' acc : List InputChunk}

lemma pushChunk_eq_ok {entry : List UInt8 × ℕ} :
    pushChunk C profile input acc entry = .ok acc' ↔
      acc.length ≠ maxPackedChunks ∧ input.PartShape C profile entry.2 ∧
        acc' = acc ++ [input.part C profile entry] := by
  simp only [pushChunk, bind_eq_ok, reject_eq_ok, exists_unit, pure_eq_ok, not_le]
  constructor
  · rintro ⟨hmax, hindex, hleaf, evidence, hopen, rfl⟩
    refine ⟨hmax, ⟨hindex, hleaf, _, hopen⟩, ?_⟩
    rw [PackingInput.part, PackingInput.evidence, hopen]
    rfl
  · rintro ⟨hmax, ⟨hindex, hleaf, evidence, hopen⟩, rfl⟩
    refine ⟨hmax, hindex, hleaf, evidence, hopen, ?_⟩
    rw [PackingInput.part, PackingInput.evidence, hopen]
    rfl

lemma pushChunks_eq_ok {entries : List (List UInt8 × ℕ)} (hacc : acc.length ≤ maxPackedChunks) :
    entries.foldlM (pushChunk C profile input) acc = .ok acc' ↔
      (∀ entry ∈ entries, input.PartShape C profile entry.2) ∧
        acc.length + entries.length ≤ maxPackedChunks ∧
        acc' = acc ++ entries.map (input.part C profile) := by
  induction entries generalizing acc with
  | nil =>
    rw [foldlM_nil, pure_eq_ok, eq_comm]
    simp [hacc]
  | cons entry entries ih =>
    rw [foldlM_cons, bind_eq_ok]
    simp only [pushChunk_eq_ok, forall_mem_cons, length_cons, map_cons]
    constructor
    · rintro ⟨mid, ⟨hne, hshape, rfl⟩, hrest⟩
      have hmid : (acc ++ [input.part C profile entry]).length ≤ maxPackedChunks := by
        rw [length_append, length_singleton]
        omega
      obtain ⟨hshapes, hlength, rfl⟩ := (ih hmid).mp hrest
      rw [length_append, length_singleton] at hlength
      refine ⟨⟨hshape, hshapes⟩, by omega, ?_⟩
      rw [append_assoc, singleton_append]
    · rintro ⟨⟨hshape, hshapes⟩, hlength, rfl⟩
      refine ⟨_, ⟨by omega, hshape, rfl⟩, (ih ?_).mpr ⟨hshapes, ?_, ?_⟩⟩
      · rw [length_append, length_singleton]
        omega
      · rw [length_append, length_singleton]
        omega
      · rw [append_assoc, singleton_append]

lemma forall_zipIdx_index {α : Type} {xs : List α} {P : ℕ → Prop} :
    (∀ entry ∈ xs.zipIdx, P entry.2) ↔ ∀ index < xs.length, P index := by
  constructor
  · intro h index hindex
    exact h (xs[index], index) (mem_zipIdx_iff_getElem?.mpr (getElem?_eq_getElem hindex))
  · rintro h ⟨x, index⟩ hentry
    exact h index (List.getElem?_eq_some_iff.mp (mem_zipIdx_iff_getElem?.mp hentry)).1

lemma pushInput_eq_ok {seen seen' : List ObjectKey} (hacc : acc.length ≤ maxPackedChunks) :
    pushInput C profile (seen, acc) input = .ok (seen', acc') ↔
      (input.Shape C profile ∧ input.key ∉ seen ∧
        acc.length + (input.parts C profile).length ≤ maxPackedChunks) ∧
      seen' = input.key :: seen ∧ acc' = acc ++ input.parts C profile := by
  have hcommitted : (¬ isSomeAnd input.sourceCommitment fun commitment =>
      commitment.byteLen.val ≠ input.bytes.length % 2 ^ 32 ∨
        merkleCommit C input.bytes ≠ .ok commitment) ↔
      ∀ commitment ∈ input.sourceCommitment, merkleCommit C input.bytes = .ok commitment := by
    simp only [isSomeAnd, not_exists, not_and, not_or, not_not]
    refine forall₂_congr fun commitment _ => and_iff_right_of_imp fun hcommit => ?_
    -- a commitment has the length of its bytes
    rw [← (merkleCommit_eq_ok C hcommit).2.2, Nat.mod_eq_of_lt commitment.byteLen.isLt]
  simp only [pushInput, bind_eq_ok, reject_eq_ok, exists_unit, pure_eq_ok, pushChunks_eq_ok hacc,
    not_or, hcommitted, forall_zipIdx_index (P := input.PartShape C profile), Prod.mk.injEq,
    PackingInput.parts, length_map]
  constructor
  · rintro ⟨⟨howner, hroot, hobject, hbytes, hcommit, hnew⟩, _, ⟨hparts, hlength, rfl⟩, rfl, rfl⟩
    exact ⟨⟨⟨howner, hroot, hobject, hbytes, hcommit, hparts⟩, hnew, hlength⟩, rfl, rfl⟩
  · rintro ⟨⟨⟨howner, hroot, hobject, hbytes, hcommit, hparts⟩, hnew, hlength⟩, rfl, rfl⟩
    exact ⟨⟨howner, hroot, hobject, hbytes, hcommit, hnew⟩, _, ⟨hparts, hlength, rfl⟩, rfl, rfl⟩

/-- The chunks of all inputs. -/
def allParts (C : Crypto) (profile : PackingProfile) (inputs : List PackingInput) :
    List InputChunk :=
  inputs.flatMap fun input => input.parts C profile

variable {inputs : List PackingInput}

lemma allParts_append_singleton :
    allParts C profile (inputs ++ [input]) =
      allParts C profile inputs ++ input.parts C profile := by
  rw [allParts, flatMap_append, flatMap_singleton]
  rfl

/-- The chunks of all inputs by identifier. -/
def sortedParts (C : Crypto) (profile : PackingProfile) (inputs : List PackingInput) :
    List InputChunk :=
  (allParts C profile inputs).insertionSort fun a b => a.source.id ≤ b.source.id

lemma sortedParts_perm (inputs : List PackingInput) :
    (sortedParts C profile inputs).Perm (allParts C profile inputs) :=
  perm_insertionSort _ _

variable {cs : List InputChunk}

/-- **What `input_chunks` accepts and returns.** -/
lemma inputChunks_eq_ok :
    inputChunks C profile inputs = .ok cs ↔
      ((∀ input ∈ inputs, input.Shape C profile) ∧ (inputs.map PackingInput.key).Nodup ∧
        (allParts C profile inputs).length ≤ maxPackedChunks) ∧
      cs = sortedParts C profile inputs := by
  have hloop : ∀ state, replay (pushInput C profile) ([], []) inputs = .ok state ↔
      ((∀ input ∈ inputs, input.Shape C profile) ∧ (inputs.map PackingInput.key).Nodup ∧
        (allParts C profile inputs).length ≤ maxPackedChunks) ∧
      state = ((inputs.map PackingInput.key).reverse, allParts C profile inputs) := by
    intro state
    refine replay_eq_ok_iff
      (fun before => (∀ input ∈ before, input.Shape C profile) ∧
        (before.map PackingInput.key).Nodup ∧
        (allParts C profile before).length ≤ maxPackedChunks)
      (fun before => ((before.map PackingInput.key).reverse, allParts C profile before))
      ⟨by simp, by simp, by simp [allParts]⟩ ?_ ?_
    · rintro before input ⟨hshapes, hnodup, hlength⟩
      rw [map_append] at hnodup
      rw [allParts_append_singleton, length_append] at hlength
      exact ⟨fun i hi => hshapes i (mem_append_left _ hi), (nodup_append.mp hnodup).1, by omega⟩
    · rintro before input ⟨seen', acc'⟩ ⟨hshapes, hnodup, hlength⟩
      rw [pushInput_eq_ok hlength, allParts_append_singleton, length_append, map_append,
        map_singleton, nodup_append, reverse_append, reverse_singleton,
        singleton_append, Prod.mk.injEq]
      simp only [forall_mem_append, forall_mem_singleton, mem_reverse, nodup_singleton, true_and]
      refine and_congr_left fun _ => ?_
      constructor
      · rintro ⟨hshape, hnew, hle⟩
        refine ⟨⟨hshapes, hshape⟩, ⟨hnodup, fun key hkey => ?_⟩, hle⟩
        rintro rfl
        exact hnew hkey
      · rintro ⟨⟨-, hshape⟩, ⟨-, hdisjoint⟩, hle⟩
        exact ⟨hshape, fun hkey => hdisjoint _ hkey rfl, hle⟩
  rw [inputChunks]
  constructor
  · intro h
    obtain ⟨state, hstate, hsorted⟩ := bind_eq_ok.mp h
    obtain ⟨hgood, rfl⟩ := (hloop state).mp hstate
    exact ⟨hgood, (pure_eq_ok.mp hsorted).symm⟩
  · rintro ⟨hgood, rfl⟩
    exact bind_eq_ok.mpr ⟨_, (hloop _).mpr ⟨hgood, rfl⟩, rfl⟩

/-! ## Identifiers -/

lemma PackingInput.id_part (entry : List UInt8 × ℕ) :
    (input.part C profile entry).source.id = chunkId input.key (Fin.ofNat _ entry.2) := rfl

lemma key_chunkId (object : ObjectKey) (index : U32) : (chunkId object index).key = object := rfl

lemma PackingInput.key_of_mem_parts {chunk : InputChunk} (h : chunk ∈ input.parts C profile) :
    chunk.source.id.key = input.key := by
  obtain ⟨entry, -, rfl⟩ := mem_map.mp h
  rw [PackingInput.id_part, key_chunkId]

lemma PackingInput.Shape.nodup_ids (h : input.Shape C profile) :
    ((input.parts C profile).map fun chunk => chunk.source.id).Nodup := by
  have hids : ((input.parts C profile).map fun chunk => chunk.source.id) =
      ((chunks profile.slotSize.val input.bytes).zipIdx.map Prod.snd).map fun index =>
        chunkId input.key (Fin.ofNat _ index) := by
    rw [PackingInput.parts, map_map, map_map]
    rfl
  rw [hids, zipIdx_map_snd, ← range_eq_range']
  refine Nodup.map_on ?_ nodup_range
  intro i hi j hj hij
  -- the indexes are within `u32`
  have hi := (h.parts i (mem_range.mp hi)).1
  have hj := (h.parts j (mem_range.mp hj)).1
  have hindex := congrArg (fun id => id.chunkIndex.val) hij
  simp only [chunkId, Fin.val_ofNat] at hindex
  rwa [Nat.mod_eq_of_lt hi, Nat.mod_eq_of_lt hj] at hindex

lemma nodup_ids_allParts (hshapes : ∀ input ∈ inputs, input.Shape C profile)
    (hkeys : (inputs.map PackingInput.key).Nodup) :
    ((allParts C profile inputs).map fun chunk => chunk.source.id).Nodup := by
  rw [allParts, map_flatMap, nodup_flatMap]
  refine ⟨fun input hinput => (hshapes input hinput).nodup_ids, ?_⟩
  refine (pairwise_map.mp hkeys).imp fun {a b} hne id ha hb => hne ?_
  obtain ⟨x, hx, rfl⟩ := mem_map.mp ha
  obtain ⟨y, hy, hxy⟩ := mem_map.mp hb
  rw [← PackingInput.key_of_mem_parts hx, ← PackingInput.key_of_mem_parts hy, hxy]

/-! ## The map of chunks -/

lemma desiredOf_append_singleton {chunk : InputChunk} {desired : Table SourceChunkId InputChunk} :
    desiredOf (cs ++ [chunk]) desired = (desiredOf cs desired).put chunk.source.id chunk := by
  rw [desiredOf, foldl_append]
  rfl

/-- Chunks with different identifiers are all found, over what was there before. -/
lemma get_desiredOf {desired : Table SourceChunkId InputChunk}
    (hnodup : (cs.map fun chunk => chunk.source.id).Nodup)
    {id : SourceChunkId} {found : InputChunk} :
    (desiredOf cs desired).get id = some found ↔ (found ∈ cs ∧ found.source.id = id) ∨
        (desired.get id = some found ∧ ∀ chunk ∈ cs, chunk.source.id ≠ id) := by
  induction cs using List.reverseRecOn generalizing found with
  | nil => simp [desiredOf]
  | append_singleton cs chunk ih =>
    rw [map_append, nodup_append] at hnodup
    obtain ⟨hcs, -, hdisjoint⟩ := hnodup
    rw [desiredOf_append_singleton]
    by_cases hid : chunk.source.id = id
    · subst hid
      rw [Table.get_put_self, Option.some_inj]
      constructor
      · rintro rfl
        exact .inl ⟨by simp, rfl⟩
      · rintro (⟨hmem, hsame⟩ | ⟨-, hnone⟩)
        · rcases mem_append.mp hmem with hmem | hmem
          · exact absurd hsame (hdisjoint _ (mem_map_of_mem hmem) _ (by simp))
          · exact (mem_singleton.mp hmem).symm
        · exact absurd rfl (hnone chunk (by simp))
    · rw [Table.get_put_of_ne hid, ih hcs]
      simp only [mem_append, mem_singleton, or_imp, forall_and, forall_eq]
      constructor
      · rintro (⟨hmem, hsame⟩ | ⟨hget, hnone⟩)
        · exact .inl ⟨.inl hmem, hsame⟩
        · exact .inr ⟨hget, hnone, hid⟩
      · rintro (⟨hmem | rfl, hsame⟩ | ⟨hget, hnone, -⟩)
        · exact .inl ⟨hmem, hsame⟩
        · exact absurd hsame hid
        · exact .inr ⟨hget, hnone⟩

end MutualBackup

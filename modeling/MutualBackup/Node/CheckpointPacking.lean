import MutualBackup.Core.CheckpointSectors
import MutualBackup.Core.PackingValidity
import MutualBackup.Node.Transition

/-!
# Checkpoints with a catalog pack their live sources

A checkpoint of format seven carries a packing catalog.  Validation compares the objects of the
catalog with the sectors of the revisions, and asks for evidence that what is packed is what the
owners signed: the commitment of a revision, or a binding by the owner, or attestations by enough
current members.  Legacy records that no entry needs are found out by counting: the records used
are among the records there, so when they are as many, they are all of them (`Used`).
-/

namespace MutualBackup

open Framework List PackedCatalog

/-- The objects of a catalog. -/
def PackedCatalog.objects (catalog : PackedCatalog) : List ObjectKey :=
  catalog.sources.map fun source => source.id.key

namespace GuildCheckpoint

variable {C : Crypto} {c : GuildCheckpoint} {scan : RevisionScan} {catalog : PackedCatalog}

/-! ## What revisions sign -/

/-- A revision signs the commitment for the object. -/
def RevisionCommits (c : GuildCheckpoint) (object : ObjectKey) (commitment : MerkleCommitment) :
    Prop :=
  ∃ use ∈ c.sectorUses, use.object = object ∧ use.commitment = some commitment

/-- A revision signs the flat root for the object. -/
def RevisionRoots (c : GuildCheckpoint) (object : ObjectKey) (flatRoot : Bytes 32) : Prop :=
  ∃ use ∈ c.sectorUses, use.object = object ∧ use.sector.root = flatRoot

variable {object : ObjectKey}

section

variable (h : Indexed c.sectorUses scan)

include h

lemma Indexed.mem_expectedObjects :
    object ∈ expectedObjects scan ↔ ∃ use ∈ c.sectorUses, use.object = object := by
  rw [expectedObjects, mem_map]
  constructor
  · rintro ⟨⟨id, owner, root, reference⟩, hentry, rfl⟩
    have hmem := (h.rooted _ _).mp (AList.mem_lookup_iff.mpr hentry)
    obtain ⟨use, huse, hrooted⟩ := mem_map.mp hmem
    refine ⟨use, huse, ?_⟩
    simp only [SectorUse.rooted, Prod.mk.injEq] at hrooted
    obtain ⟨hid, howner, hroot, -⟩ := hrooted
    rw [SectorUse.object, hid, howner, hroot]
  · rintro ⟨use, huse, rfl⟩
    refine ⟨⟨use.rooted.1, use.rooted.2⟩, AList.mem_lookup_iff.mp ?_, rfl⟩
    exact (h.rooted _ _).mpr (mem_map_of_mem huse)

lemma Indexed.lookup_commitments {commitment : MerkleCommitment} :
    scan.commitments.lookup object = some commitment ↔ c.RevisionCommits object commitment := by
  rw [h.commitments, mem_filterMap]
  refine exists_congr fun use => and_congr_right fun _ => ?_
  rw [SectorUse.committed, Option.map_eq_some_iff]
  simp only [Prod.mk.injEq]
  constructor
  · rintro ⟨_, hcommitment, hobject, rfl⟩
    exact ⟨hobject, hcommitment⟩
  · rintro ⟨hobject, hcommitment⟩
    exact ⟨commitment, hcommitment, hobject, rfl⟩

lemma Indexed.lookup_flatRoots {flatRoot : Bytes 32} :
    scan.flatRoots.lookup object = some flatRoot ↔ c.RevisionRoots object flatRoot := by
  rw [h.flatRoots, mem_map]
  exact exists_congr fun use => and_congr_right fun _ => by rw [SectorUse.flatRoot, Prod.mk.injEq]

end

/-! ## Legacy records -/

section

variable (C : Crypto) (c : GuildCheckpoint) (catalog : PackedCatalog)

/-- The only binding of the object is by its owner, for the commitment and a flat root that a
revision signs. -/
def BindingCommits (object : ObjectKey) (commitment : MerkleCommitment) : Prop :=
  ∃ binding ∈ catalog.legacyBindings.getD [], binding.value.key = object ∧
    (∀ binding' ∈ catalog.legacyBindings.getD [], binding'.value.key = object →
      binding' = binding) ∧
    binding.signer = object.1 ∧
    binding.verify C LegacyPackingBinding.codec legacyPackingBindingDomain = .ok () ∧
    binding.value.sourceCommitment = commitment ∧ c.RevisionRoots object binding.value.flatRoot

/-- A member attests, for this guild and this epoch, that the object of the flat root has the
commitment. -/
def Attests (epoch : U64) (object : ObjectKey) (commitment : MerkleCommitment) (flatRoot : Bytes 32)
    (member : NodeId) : Prop :=
  member ∈ c.memberIds ∧ ∃ attestation ∈ catalog.legacyAttestations.getD [],
    attestation.signer = member ∧
    attestation.verify C LegacyPackingAttestation.codec legacyPackingAttestationDomain = .ok () ∧
    attestation.value.guildId = c.guildId ∧ attestation.value.membershipEpoch = epoch ∧
    attestation.value.key = object ∧ attestation.value.sourceCommitment = commitment ∧
    attestation.value.flatRoot = flatRoot

/-- Enough different members attest to the commitment, with a flat root that a revision signs. -/
def AttestationsCommit (object : ObjectKey) (commitment : MerkleCommitment) : Prop :=
  ∃ authority required flatRoot, ∃ members : Finset NodeId, c.authority = some authority ∧
    authority.quorum.required c.members.length = .ok required ∧ required ≤ members.card ∧
    c.RevisionRoots object flatRoot ∧
    ∀ member ∈ members,
      c.Attests C catalog authority.membershipEpoch object commitment flatRoot member

end

/-- What the loop over the attestations has collected: under every object one value, with the
different members who attest to it. -/
structure Collected (c : GuildCheckpoint) (authority : CheckpointAuthority)
    (before : List (SignedRecord LegacyPackingAttestation))
    (attested : AList fun _ : ObjectKey => Attested) : Prop where
  current : ∀ attestation ∈ before, attestation.value.guildId = c.guildId ∧
    attestation.value.membershipEpoch = authority.membershipEpoch ∧
    attestation.signer ∈ c.memberIds
  entered : ∀ attestation ∈ before, attestation.value.key ∈ attested
  signers : ∀ object entry, attested.lookup object = some entry → entry.1.key = object ∧
    entry.2.Nodup ∧ ∀ member ∈ entry.2, ∃ attestation ∈ before,
      attestation.signer = member ∧ attestation.value = entry.1

variable {authority : CheckpointAuthority}

lemma collected_nil : Collected c authority [] ∅ := ⟨by simp, by simp, by simp⟩

lemma Collected.checkAttested {before : List (SignedRecord LegacyPackingAttestation)}
    {attested attested' : AList fun _ : ObjectKey => Attested}
    (h : Collected c authority before attested)
    {attestation : SignedRecord LegacyPackingAttestation}
    (hstep : c.checkAttested authority attested attestation = .ok attested') :
    Collected c authority (before ++ [attestation]) attested' := by
  rw [GuildCheckpoint.checkAttested] at hstep
  simp only [bind_eq_ok, reject_eq_ok, exists_unit, pure_eq_ok, not_or, not_not] at hstep
  obtain ⟨hcurrent, ⟨hvalue, hnew⟩, rfl⟩ := hstep
  set entry := (attested.lookup attestation.value.key).getD (attestation.value, []) with hentry
  -- what was under the object before: nothing, or an entry with its own members
  have hentered : entry.2.Nodup ∧ ∀ member ∈ entry.2, ∃ a ∈ before,
      a.signer = member ∧ a.value = attestation.value := by
    cases hlookup : attested.lookup attestation.value.key with
    | none =>
      rw [hlookup] at hentry
      rw [hentry]
      simp
    | some old =>
      rw [hlookup] at hentry
      have hold : entry = old := hentry
      obtain ⟨-, hnodup, hmembers⟩ := h.signers _ _ hlookup
      rw [hold] at hvalue ⊢
      rw [← hvalue]
      exact ⟨hnodup, hmembers⟩
  refine ⟨?_, ?_, ?_⟩
  · intro a ha
    rcases mem_append.mp ha with ha | ha
    · exact h.current a ha
    · rw [mem_singleton.mp ha]
      exact hcurrent
  · intro a ha
    rw [AList.mem_insert]
    rcases mem_append.mp ha with ha | ha
    · exact .inr (h.entered a ha)
    · exact .inl (by rw [mem_singleton.mp ha])
  · intro object entry' hlookup
    by_cases hobject : object = attestation.value.key
    · subst hobject
      rw [AList.lookup_insert] at hlookup
      obtain rfl := Option.some.inj hlookup
      refine ⟨rfl, nodup_cons.mpr ⟨hnew, hentered.1⟩, ?_⟩
      rintro member hmember
      rcases mem_cons.mp hmember with rfl | hmember
      · exact ⟨attestation, by simp, rfl, rfl⟩
      · obtain ⟨a, ha, hrest⟩ := hentered.2 member hmember
        exact ⟨a, mem_append_left _ ha, hrest⟩
    · rw [AList.lookup_insert_ne hobject] at hlookup
      obtain ⟨hkey, hnodup, hmembers⟩ := h.signers _ _ hlookup
      refine ⟨hkey, hnodup, fun member hmember => ?_⟩
      obtain ⟨a, ha, hrest⟩ := hmembers member hmember
      exact ⟨a, mem_append_left _ ha, hrest⟩

/-! ## Entries -/

variable {authentication : List PackedSourceAuthentication} {entry : PackedSourceAuthentication}

section Entries

variable {bindings : AList fun _ : ObjectKey => LegacyPackingBinding}
  {attested : AList fun _ : ObjectKey => Attested} {required : ℕ}

/-- What supports an entry, as the maps of the loop have it. -/
inductive Supported (scan : RevisionScan)
    (bindings : AList fun _ : ObjectKey => LegacyPackingBinding)
    (attested : AList fun _ : ObjectKey => Attested) (required : ℕ)
    (entry : PackedSourceAuthentication) : Prop
  | revision (h : scan.commitments.lookup entry.id.key = some entry.sourceCommitment)
  | binding (binding : LegacyPackingBinding) (hlookup : bindings.lookup entry.id.key = some binding)
      (hstands : standsFor scan entry binding.sourceCommitment binding.flatRoot)
  | attestations (attestation : LegacyPackingAttestation) (signers : List NodeId)
      (hlookup : attested.lookup entry.id.key = some (attestation, signers))
      (hstands : standsFor scan entry attestation.sourceCommitment attestation.flatRoot)
      (hquorum : required ≤ signers.length)

/-- The entry is not supported by a revision. -/
def Unsigned (scan : RevisionScan) (entry : PackedSourceAuthentication) : Prop :=
  scan.commitments.lookup entry.id.key ≠ some entry.sourceCommitment

/-- What the loop over the entries has used: records that are there, each for an entry without the
commitment of a revision, and an attestation only for an object without a binding. -/
structure Used (scan : RevisionScan) (bindings : AList fun _ : ObjectKey => LegacyPackingBinding)
    (attested : AList fun _ : ObjectKey => Attested) (required : ℕ)
    (before : List PackedSourceAuthentication) (used : UsedEvidence) : Prop where
  supported : ∀ entry ∈ before, Supported scan bindings attested required entry
  nodup_bindings : used.bindings.Nodup
  binding_used : ∀ object ∈ used.bindings, object ∈ bindings ∧
    ∃ entry ∈ before, entry.id.key = object ∧ Unsigned scan entry
  nodup_attestations : used.attestations.Nodup
  attestation_used : ∀ object ∈ used.attestations, object ∈ attested ∧ object ∉ bindings ∧
    ∃ entry ∈ before, entry.id.key = object ∧ Unsigned scan entry

/-- More entries have the same use. -/
lemma Used.append {before : List PackedSourceAuthentication} {used : UsedEvidence}
    (h : Used scan bindings attested required before used)
    (hentry : Supported scan bindings attested required entry) :
    Used scan bindings attested required (before ++ [entry]) used := by
  refine ⟨?_, h.nodup_bindings, ?_, h.nodup_attestations, ?_⟩
  · intro e he
    rcases mem_append.mp he with he | he
    · exact h.supported e he
    · rw [mem_singleton.mp he]
      exact hentry
  · intro object hobject
    obtain ⟨hmem, e, he, hrest⟩ := h.binding_used object hobject
    exact ⟨hmem, e, mem_append_left _ he, hrest⟩
  · intro object hobject
    obtain ⟨hmem, hnot, e, he, hrest⟩ := h.attestation_used object hobject
    exact ⟨hmem, hnot, e, mem_append_left _ he, hrest⟩

lemma Used.checkEntry {before : List PackedSourceAuthentication} {used used' : UsedEvidence}
    (h : Used scan bindings attested required before used)
    (hstep : checkEntry scan bindings attested required used entry = .ok used') :
    Used scan bindings attested required (before ++ [entry]) used' := by
  have hself : entry ∈ before ++ [entry] := mem_append_right _ (mem_singleton.mpr rfl)
  rw [GuildCheckpoint.checkEntry] at hstep
  split at hstep
  case isTrue hsigned =>
    obtain rfl := pure_eq_ok.mp hstep
    exact h.append (.revision hsigned)
  case isFalse hunsigned =>
    split at hstep
    case h_1 binding hlookup =>
      simp only [bind_eq_ok, reject_eq_ok, exists_unit, pure_eq_ok, not_not] at hstep
      obtain ⟨hstands, rfl⟩ := hstep
      have happend := h.append (.binding binding hlookup hstands)
      refine { happend with nodup_bindings := h.nodup_bindings.insert, binding_used := ?_ }
      intro object hobject
      rcases mem_insert_iff.mp hobject with rfl | hobject
      · exact ⟨AList.lookup_isSome.mp (by rw [hlookup]; rfl), entry, hself, rfl, hunsigned⟩
      · exact happend.binding_used object hobject
    case h_2 attestation signers hnone hlookup =>
      simp only [bind_eq_ok, reject_eq_ok, exists_unit, pure_eq_ok, not_or, not_not,
        not_lt] at hstep
      obtain ⟨⟨hstands, hquorum⟩, rfl⟩ := hstep
      have happend := h.append (.attestations attestation signers hlookup hstands hquorum)
      refine { happend with
        nodup_attestations := h.nodup_attestations.insert, attestation_used := ?_ }
      intro object hobject
      rcases mem_insert_iff.mp hobject with rfl | hobject
      · exact ⟨AList.lookup_isSome.mp (by rw [hlookup]; rfl), AList.lookup_eq_none.mp hnone, entry,
          hself, rfl, hunsigned⟩
      · exact happend.attestation_used object hobject
    case h_3 => cases hstep

/-- Things that are among others and as many are all of them. -/
lemma subset_of_length_eq {α : Type} [DecidableEq α] {xs ys : List α} (hnodup : xs.Nodup)
    (hsubset : xs ⊆ ys) (hlength : xs.length = ys.length) : ys ⊆ xs :=
  ((subperm_of_subset hnodup hsubset).perm_of_length_le hlength.ge).symm.subset

/-- **The evidence.** Every entry is supported, and every legacy record is needed by one. -/
lemma checkEvidence_eq_ok
    (h : checkEvidence scan authentication bindings attested required = .ok ()) :
    (∀ entry ∈ authentication, Supported scan bindings attested required entry) ∧
      (∀ object ∈ bindings, ∃ entry ∈ authentication, entry.id.key = object ∧ Unsigned scan entry) ∧
      ∀ object ∈ attested, object ∉ bindings ∧ ∃ entry ∈ authentication,
        entry.id.key = object ∧ Unsigned scan entry := by
  rw [checkEvidence] at h
  simp only [bind_eq_ok, reject_eq_ok, not_or, not_not] at h
  obtain ⟨used, hloop, hbindings, hattestations⟩ := h
  have hused : Used scan bindings attested required authentication used :=
    replay_history (P := Used scan bindings attested required)
      ⟨by simp, nodup_nil, by simp, nodup_nil, by simp⟩
      (fun _ _ _ _ hbefore hstep => hbefore.checkEntry hstep) hloop
  refine ⟨hused.supported, ?_, ?_⟩
  · have hall := subset_of_length_eq hused.nodup_bindings
      (fun object hobject => AList.mem_keys.mp (hused.binding_used object hobject).1) hbindings
    exact fun object hobject => (hused.binding_used object (hall (AList.mem_keys.mp hobject))).2
  · have hall := subset_of_length_eq hused.nodup_attestations
      (fun object hobject => AList.mem_keys.mp (hused.attestation_used object hobject).1)
      hattestations
    exact fun object hobject => (hused.attestation_used object (hall (AList.mem_keys.mp hobject))).2

end Entries

/-- The members that the loop has collected for an object attest to its commitment. -/
lemma attestationsCommit_of_lookup (hscan : Indexed c.sectorUses scan) {required : ℕ}
    (hauthority : c.authority = some authority)
    (hrequired : authority.quorum.required c.members.length = .ok required)
    {attestations : List (SignedRecord LegacyPackingAttestation)}
    (hsome : catalog.legacyAttestations = some attestations)
    (hshapes : ∀ attestation ∈ attestations,
      PackedCatalog.AttestationShape C catalog.profile authentication attestation)
    {attested : AList fun _ : ObjectKey => Attested}
    (hcollected : Collected c authority attestations attested)
    {attestation : LegacyPackingAttestation} {signers : List NodeId}
    (hlookup : attested.lookup entry.id.key = some (attestation, signers))
    (hstands : standsFor scan entry attestation.sourceCommitment attestation.flatRoot)
    (hquorum : required ≤ signers.length) :
    c.AttestationsCommit C catalog entry.id.key entry.sourceCommitment := by
  obtain ⟨hkey, hnodup, hmembers⟩ := hcollected.signers _ _ hlookup
  refine ⟨authority, required, attestation.flatRoot, signers.toFinset, hauthority, hrequired, ?_,
    hscan.lookup_flatRoots.mp hstands.2, ?_⟩
  · rwa [toFinset_card_of_nodup hnodup]
  · intro member hmember
    obtain ⟨signed, hmem, rfl, rfl⟩ := hmembers member (mem_toFinset.mp hmember)
    obtain ⟨hguild, hepoch, hcurrent⟩ := hcollected.current signed hmem
    have hgetD : catalog.legacyAttestations.getD [] = attestations := by rw [hsome]; rfl
    rw [Attests, hgetD]
    exact ⟨hcurrent, signed, hmem, rfl, (hshapes signed hmem).1, hguild, hepoch, hkey, hstands.1,
      rfl⟩

/-! ## The whole -/

/-- The catalog packs the sectors of the revisions, whole and once each, and what supports them is
signed; no legacy record is there for nothing. -/
structure PacksLiveSources (C : Crypto) (c : GuildCheckpoint) (catalog : PackedCatalog) :
    Prop where
  objects : ∀ object, object ∈ catalog.objects ↔ ∃ use ∈ c.sectorUses, use.object = object
  chunks : ∀ object ∈ catalog.objects,
    ((catalog.chunksOf object).map fun source => source.id.chunkIndex.val).Perm
      (List.range (catalog.chunksOf object).length)
  lengths : ∀ object ∈ catalog.objects,
    ((catalog.chunksOf object).map fun source => source.logicalLen.val).sum = v1SectorSize
  authentic : 2 ≤ catalog.formatVersion ∧ catalog.formatVersion ≤ 5 → ∃ authentication,
    catalog.sourceAuthentication = some authentication ∧ ∀ source ∈ catalog.sources,
      ∃ entry ∈ authentication, entry.id = source.id ∧
        (∀ entry' ∈ authentication, entry'.id = source.id → entry' = entry) ∧
        (c.RevisionCommits source.id.key entry.sourceCommitment ∨
          c.BindingCommits C catalog source.id.key entry.sourceCommitment ∨
          c.AttestationsCommit C catalog source.id.key entry.sourceCommitment)
  bindings_needed : ∀ binding ∈ catalog.legacyBindings.getD [], ∃ source ∈ catalog.sources,
    source.id.key = binding.value.key ∧ ∃ entry ∈ catalog.sourceAuthentication.getD [],
      entry.id = source.id ∧ ¬ c.RevisionCommits source.id.key entry.sourceCommitment
  attestations_needed : ∀ attestation ∈ catalog.legacyAttestations.getD [],
    ∃ source ∈ catalog.sources, source.id.key = attestation.value.key ∧
      (∀ binding ∈ catalog.legacyBindings.getD [], binding.value.key ≠ source.id.key) ∧
      ∃ entry ∈ catalog.sourceAuthentication.getD [], entry.id = source.id ∧
        ¬ c.RevisionCommits source.id.key entry.sourceCommitment

lemma catalog_of_checkExtensions (hversion : c.formatVersion = 7)
    (h : c.checkExtensions C = .ok ()) : ∃ catalog,
      c.packingCatalog = some catalog ∧ catalog.validate C = .ok () := by
  rw [checkExtensions, hversion] at h
  split at h
  case h_1 => simp [reject_eq_ok] at h
  case h_2 => simp [reject_eq_ok] at h
  case h_3 authority catalog hauthority hcatalog =>
    obtain ⟨-, -, _, hvalid⟩ := not_not.mp (reject_eq_ok.mp h)
    exact ⟨catalog, hcatalog, hvalid⟩
  case h_4 => cases h

/-- The commitments of the entries are signed, and the legacy records are needed, whichever version
of the catalog asks for them. -/
structure Evidenced (C : Crypto) (c : GuildCheckpoint) (catalog : PackedCatalog)
    (authentication : List PackedSourceAuthentication) : Prop where
  supported : ∀ entry ∈ authentication, c.RevisionCommits entry.id.key entry.sourceCommitment ∨
      c.BindingCommits C catalog entry.id.key entry.sourceCommitment ∨
      c.AttestationsCommit C catalog entry.id.key entry.sourceCommitment
  bindings : ∀ binding ∈ catalog.legacyBindings.getD [], ∃ entry ∈ authentication,
    entry.id.key = binding.value.key ∧ ¬ c.RevisionCommits entry.id.key entry.sourceCommitment
  attestations : ∀ attestation ∈ catalog.legacyAttestations.getD [],
    (∀ binding ∈ catalog.legacyBindings.getD [], binding.value.key ≠ attestation.value.key) ∧
      ∃ entry ∈ authentication, entry.id.key = attestation.value.key ∧
        ¬ c.RevisionCommits entry.id.key entry.sourceCommitment

section

variable {bindings : List (SignedRecord LegacyPackingBinding)}
  (hnodup : (bindings.map fun binding => binding.value.key).Nodup)

include hnodup

lemma keeps_bindingMap :
    Keeps (bindingMap bindings) (bindings.map fun binding => (binding.value.key, binding.value)) :=
  keeps_foldl_insert (fun binding : SignedRecord LegacyPackingBinding =>
    (binding.value.key, binding.value)) hnodup

variable {authentication' : List PackedSourceAuthentication}
  (hscan : Indexed c.sectorUses scan) (hsome : catalog.legacyBindings = some bindings)
  (hshapes : ∀ binding ∈ bindings,
    PackedCatalog.BindingShape C catalog.profile authentication' binding)

include hscan hsome hshapes

/-- The binding that the map has for an object is the only one of the object, and by its owner. -/
lemma bindingCommits_of_lookup {binding : LegacyPackingBinding}
    (hlookup : (bindingMap bindings).lookup entry.id.key = some binding)
    (hstands : standsFor scan entry binding.sourceCommitment binding.flatRoot) :
    c.BindingCommits C catalog entry.id.key entry.sourceCommitment := by
  obtain ⟨signed, hmem, hpair⟩ := mem_map.mp ((keeps_bindingMap hnodup _ _).mp hlookup)
  obtain ⟨hkey, rfl⟩ := Prod.mk.inj hpair
  obtain ⟨hverify, -, hsigner, -⟩ := hshapes signed hmem
  have hgetD : catalog.legacyBindings.getD [] = bindings := by rw [hsome]; rfl
  rw [BindingCommits, hgetD]
  refine ⟨signed, hmem, hkey, ?_, ?_, hverify, hstands.1, hscan.lookup_flatRoots.mp hstands.2⟩
  · intro other hother hsame
    exact inj_on_of_nodup_map hnodup hother hmem (hsame.trans hkey.symm)
  · rw [hsigner, ← hkey]
    rfl

/-- The versions with legacy records: the maps stand for the vectors. -/
lemma evidenced_of_checkEvidence {attested : AList fun _ : ObjectKey => Attested} {required : ℕ}
    (hentered : ∀ attestation ∈ catalog.legacyAttestations.getD [],
      attestation.value.key ∈ attested)
    (hcommit : ∀ (entry : PackedSourceAuthentication) attestation signers,
      attested.lookup entry.id.key = some (attestation, signers) →
      standsFor scan entry attestation.sourceCommitment attestation.flatRoot →
      required ≤ signers.length →
        c.AttestationsCommit C catalog entry.id.key entry.sourceCommitment)
    (h : checkEvidence scan authentication (bindingMap bindings) attested required = .ok ()) :
    Evidenced C c catalog authentication := by
  obtain ⟨hsupported, hbindings, hattestations⟩ := checkEvidence_eq_ok h
  have hunsigned : ∀ entry, Unsigned scan entry →
      ¬ c.RevisionCommits entry.id.key entry.sourceCommitment :=
    fun entry h hcommits => h (hscan.lookup_commitments.mpr hcommits)
  have hgetD : catalog.legacyBindings.getD [] = bindings := by rw [hsome]; rfl
  have hkeys : ∀ binding ∈ bindings, binding.value.key ∈ bindingMap bindings := by
    intro binding hbinding
    exact (keeps_bindingMap hnodup).mem_iff.mpr
      ⟨binding.value, mem_map.mpr ⟨binding, hbinding, rfl⟩⟩
  refine ⟨?_, ?_, ?_⟩
  · intro entry hentry
    cases hsupported entry hentry with
    | revision hsigned => exact .inl (hscan.lookup_commitments.mp hsigned)
    | binding binding hlookup hstands =>
      exact .inr (.inl (bindingCommits_of_lookup hnodup hscan hsome hshapes hlookup hstands))
    | attestations attestation signers hlookup hstands hquorum =>
      exact .inr (.inr (hcommit entry attestation signers hlookup hstands hquorum))
  · rw [hgetD]
    intro binding hbinding
    obtain ⟨entry, hentry, hkey, hun⟩ := hbindings _ (hkeys binding hbinding)
    exact ⟨entry, hentry, hkey, hunsigned entry hun⟩
  · rw [hgetD]
    intro attestation hattestation
    obtain ⟨hnot, entry, hentry, hkey, hun⟩ := hattestations _ (hentered attestation hattestation)
    refine ⟨?_, entry, hentry, hkey, hunsigned entry hun⟩
    intro binding hbinding hsame
    exact hnot (hsame ▸ hkeys binding hbinding)

end

lemma evidenced_of_validate (hscan : Indexed c.sectorUses scan)
    (hvalid : catalog.validate C = .ok ()) (hversion : c.checkCatalogVersion scan catalog = .ok ())
    (hauthentication : catalog.sourceAuthentication = some authentication) :
    Evidenced C c catalog authentication := by
  obtain ⟨-, ⟨hdomain, -⟩, -, -, -, -, hevidence⟩ := validate_eq_ok.mp hvalid
  obtain ⟨-, hbindings, hattestations⟩ := validateEvidence_eq_ok.mp hevidence
  rw [checkCatalogVersion, hauthentication] at hversion
  dsimp only at hversion
  rcases fields_of_idDomain hdomain with ⟨-, hnone, -⟩ |
    ⟨h23, -, hnoBindings, hnoAttestations⟩ | ⟨h4, -, -, hnoAttestations⟩ | ⟨h5, -, -, -⟩
  · rw [hauthentication] at hnone
    cases hnone
  · rw [if_pos h23, reject_eq_ok] at hversion
    push Not at hversion
    refine ⟨fun entry hentry => .inl (hscan.lookup_commitments.mp (hversion entry hentry)), ?_, ?_⟩
    · simp [hnoBindings]
    · simp [hnoAttestations]
  · obtain ⟨bindings, authentication', hsome, -, -, hshapes, hnodup⟩ :=
      validateLegacyBindings_eq_ok.mp (hbindings (.inl h4))
    rw [if_neg (by rw [h4]; decide), if_pos h4, hsome] at hversion
    -- without attestations the map of them is empty
    refine evidenced_of_checkEvidence hnodup hscan hsome hshapes ?_ ?_ hversion
    · simp [hnoAttestations]
    · intro entry attestation signers hlookup
      cases hlookup
  · obtain ⟨bindings, authentication', hsome, -, -, hshapes, hnodup⟩ :=
      validateLegacyBindings_eq_ok.mp (hbindings (.inr h5))
    obtain ⟨attestations, authentication'', hattestation, -, -, hattested, -⟩ :=
      validateLegacyAttestations_eq_ok.mp (hattestations h5)
    rw [if_neg (by rw [h5]; decide), if_neg (by rw [h5]; decide), if_pos h5, hsome,
      hattestation] at hversion
    simp only [bind_eq_ok, okOr_eq_ok, mapErr_eq_ok] at hversion
    obtain ⟨_, ⟨⟩, authority, hauthority, required, hrequired, _, ⟨⟩, attested, hloop, hrun⟩ :=
      hversion
    have hcollected : Collected c authority attestations attested :=
      replay_history (P := Collected c authority) collected_nil
        (fun _ _ _ _ hbefore hstep => hbefore.checkAttested hstep) hloop
    refine evidenced_of_checkEvidence hnodup hscan hsome hshapes ?_ ?_ hrun
    · rw [hattestation]
      exact hcollected.entered
    · intro entry attestation signers hlookup hstands hquorum
      exact attestationsCommit_of_lookup hscan hauthority hrequired hattestation hattested
        hcollected hlookup hstands hquorum

/-- **A checkpoint of format seven packs and authenticates exactly its live sources.** -/
theorem packs_live_sources (C : Crypto) (c : GuildCheckpoint) (hversion : c.formatVersion = 7)
    (h : c.validate C = .ok ()) :
    ∃ catalog, c.packingCatalog = some catalog ∧ PacksLiveSources C c catalog := by
  rw [validate] at h
  simp only [bind_eq_ok, reject_eq_ok, exists_unit] at h
  obtain ⟨-, hextensions, -, _, -, -, scan, hrevisions, -, -, hcheck, -⟩ := h
  have hscan := indexed_of_checkRevisions hrevisions
  obtain ⟨catalog, hcatalog, hvalid⟩ := catalog_of_checkExtensions hversion hextensions
  rw [checkCatalog, hcatalog] at hcheck
  simp only [bind_eq_ok, reject_eq_ok, exists_unit, not_not] at hcheck
  obtain ⟨⟨hincluded, hpresent, hlength⟩, hevidence⟩ := hcheck
  obtain ⟨-, ⟨hdomain, -⟩, -, -, -, hchunks, hrecords⟩ := validate_eq_ok.mp hvalid
  have hmem : ∀ object, object ∈ catalog.objects ↔ ∃ source ∈ catalog.sources,
      source.id.key = object := fun object => mem_map
  have hobjects : ∀ object, object ∈ catalog.objects ↔
      ∃ use ∈ c.sectorUses, use.object = object := by
    intro object
    rw [hmem, ← hscan.mem_expectedObjects]
    refine ⟨?_, hpresent object⟩
    rintro ⟨source, hsource, rfl⟩
    exact hincluded source hsource
  have hperm : ∀ object ∈ catalog.objects,
      ((catalog.chunksOf object).map fun source => source.id.chunkIndex.val).Perm
        (List.range (catalog.chunksOf object).length) := by
    intro object hobject
    obtain ⟨source, hsource, rfl⟩ := (hmem object).mp hobject
    exact hchunks source hsource
  have hsum : ∀ object ∈ catalog.objects,
      ((catalog.chunksOf object).map fun source => source.logicalLen.val).sum = v1SectorSize := by
    intro object hobject
    obtain ⟨source, hsource, rfl⟩ := (hmem object).mp hobject
    exact hlength source hsource
  refine ⟨catalog, hcatalog, ?_⟩
  rcases version_of_idDomain hdomain with ⟨h1, hbindings, hattestations⟩ |
    ⟨authentication, hsome, hrange⟩
  · refine ⟨hobjects, hperm, hsum, ?_, ?_, ?_⟩
    · rw [h1]
      intro hrange
      exact absurd hrange (by decide)
    · simp [hbindings]
    · simp [hattestations]
  · have hproved := (validateEvidence_eq_ok.mp hrecords).1 hrange
    obtain ⟨authentication', _, hsome', -, hnodup, hids, -⟩ :=
      validateSourceAuthentication_eq_ok.mp hproved
    obtain rfl := Option.some.inj (hsome'.symm.trans hsome)
    simp only [mem_reverse, mem_map] at hids
    have hentries : ∀ entry ∈ authentication', ∃ source ∈ catalog.sources, source.id = entry.id :=
      fun entry hentry => (hids entry.id).mp ⟨entry, hentry, rfl⟩
    have hgetD : catalog.sourceAuthentication.getD [] = authentication' := by rw [hsome]; rfl
    obtain ⟨hsupported, hbindings, hattestations⟩ :=
      evidenced_of_validate hscan hvalid hevidence hsome
    refine ⟨hobjects, hperm, hsum, fun _ => ⟨authentication', hsome, ?_⟩, ?_, ?_⟩
    · intro source hsource
      obtain ⟨entry, hentry, hid⟩ := (hids source.id).mpr ⟨source, hsource, rfl⟩
      refine ⟨entry, hentry, hid, ?_, ?_⟩
      · intro entry' hentry' hid'
        exact inj_on_of_nodup_map hnodup hentry' hentry (hid'.trans hid.symm)
      · rw [← hid]
        exact hsupported entry hentry
    · intro binding hbinding
      obtain ⟨entry, hentry, hkey, hunsigned⟩ := hbindings binding hbinding
      obtain ⟨source, hsource, hid⟩ := hentries entry hentry
      rw [hgetD]
      refine ⟨source, hsource, by rw [hid, hkey], entry, hentry, hid.symm, ?_⟩
      rwa [hid]
    · intro attestation hattestation
      obtain ⟨hnone, entry, hentry, hkey, hunsigned⟩ := hattestations attestation hattestation
      obtain ⟨source, hsource, hid⟩ := hentries entry hentry
      rw [hgetD]
      refine ⟨source, hsource, by rw [hid, hkey], ?_, entry, hentry, hid.symm, ?_⟩
      · rw [hid, hkey]
        exact hnone
      · rwa [hid]

/-- A record signed by a key under the transparent primitives. -/
def smallRecord {α : Type} (domain : String) (codec : Codec α) (value : α) (key : Bytes 32) :
    SignedRecord α :=
  ⟨⟨key⟩, value, transparentSignature key (signingPayload domain ((codec.encode value).getD []))⟩

/-- The first revision with a second sector. -/
def pairRevision : SignedRecord UserRevision :=
  let value := { firstRevision.value with dataSectors := [⟨22, 23, 1⟩], writerSignature := [] }
  smallRecord userRevisionDomain UserRevision.codec { value with
    writerSignature := (smallRecord writerRevisionDomain UserRevision.codec value 9).signature } 1

/-- A catalog of version five with two chunks for each sector, whose subtrees have the identifier of
the sector as their root.  The owner binds the first sector, two members attest the second one. -/
def evidenceCatalog : PackedCatalog :=
  let profile : PackingProfile := ⟨1, 65536, 32768⟩
  let root := packingProtectedRoot ⟨5⟩
  let chunk (object : Bytes 32) (i : ℕ) : SourceChunkId := ⟨⟨1⟩, root, object, Fin.ofNat _ i⟩
  let commitment (object : Bytes 32) : MerkleCommitment :=
    ⟨1, 16, 65536,
      bindRoot .transparent 65536 (rootAbove .transparent object 0 [object])⟩
  let sector (index : U32) (object : Bytes 32) : PackedSectorDescriptor :=
    let sector : PackedSectorDescriptor := ⟨0, index, (commitment object).root, commitment object,
      [0, 1].map fun i => .data ⟨chunk object i, Fin.ofNat _ (i * 32768), 32768, 14⟩⟩
    { sector with id := (sector.calculateId .transparent profile).toOption.getD 0 }
  let proved (object : Bytes 32) (i : ℕ) : PackedSourceAuthentication :=
    ⟨chunk object i, commitment object, ⟨1, Fin.ofNat _ (i * 2048), 2048, object, [object]⟩⟩
  let catalog : PackedCatalog :=
    { id := 0, formatVersion := 5, revision := 1, parent := none, profile := profile
      sectors := [sector 0 12, sector 1 22]
      sourceAuthentication := some ([0, 1].map (proved 12) ++ [0, 1].map (proved 22))
      legacyBindings := some [smallRecord legacyPackingBindingDomain LegacyPackingBinding.codec
        ⟨1, ⟨1⟩, root, 12, 13, commitment 12⟩ 1]
      legacyAttestations := some ([1, 2].map
        (smallRecord legacyPackingAttestationDomain LegacyPackingAttestation.codec
          ⟨1, 7, 1, ⟨1⟩, root, 22, 23, commitment 22⟩)) }
  { catalog with id := (catalog.calculateId .transparent).toOption.getD 0 }

def evidenceCheckpoint : GuildCheckpoint :=
  { smallCheckpoint 1 none [] [pairRevision] with
    formatVersion := 7, packingCatalog := some evidenceCatalog }

theorem packs_live_sources_evidence :
    evidenceCheckpoint.formatVersion = 7 ∧ evidenceCheckpoint.validate .transparent = .ok () ∧
      PacksLiveSources .transparent evidenceCheckpoint evidenceCatalog := by
  have hvalid : evidenceCheckpoint.validate .transparent = .ok () := by decide +kernel
  obtain ⟨catalog, hcatalog, hpacks⟩ :=
    packs_live_sources .transparent evidenceCheckpoint rfl hvalid
  obtain rfl := Option.some.inj hcatalog
  exact ⟨rfl, hvalid, hpacks⟩

end GuildCheckpoint

end MutualBackup

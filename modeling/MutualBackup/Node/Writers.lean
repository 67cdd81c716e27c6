import MutualBackup.Node.History

/-!
# Who adds revisions

A new revision should come from a current member, under the newest writer key of that member, and a
new writer key should come one at a time and with a revision that uses it.  The transition check
asks this of the members of the successor, one by one, and of no one else.  Since version four a
checkpoint may carry the fences and revisions of owners who have left the guild, and the check never
visits those: `added_by_members_iff` says that the rule holds of a transition exactly when the
owners it is about are members.

`departedOwner` is a transition that breaks every part of the rule: an owner leaves the guild, and
in the same checkpoint gains two writer keys and a revision.
-/

namespace MutualBackup

open Framework

namespace GuildCheckpoint

/-- A revision that the successor adds. -/
def Adds (previous next : GuildCheckpoint) (r : SignedRecord UserRevision) : Prop :=
  r ∈ next.revisions ∧ r ∉ previous.revisions

/-- **The rule.** -/
structure AddedByMembers (C : Crypto) (previous next : GuildCheckpoint) : Prop where
  /-- New revisions are of members of the successor. -/
  member : ∀ r, Adds previous next r → r.value.owner ∈ next.memberIds
  /-- They are signed under the newest fence of their owner. -/
  newest : ∀ r, Adds previous next r → r.value.verifyWriter C = .ok () ∧
    (⟨r.value.owner, r.value.writerEpoch, r.value.writerPublicKey⟩ : WriterFence) ∈
      next.writerFences ∧
    ∀ fence ∈ next.writerFences, fence.owner = r.value.owner → fence.epoch ≤ r.value.writerEpoch
  /-- The fences of an owner advance by at most one, and with a new revision under the new one. -/
  advance : ∀ owner, previous.latestFence owner ≠ next.latestFence owner →
    (previous.latestFence owner).checkedSucc = some (next.latestFence owner) ∧
      ∃ r, Adds previous next r ∧ r.value.owner = owner ∧
        r.value.writerEpoch = next.latestFence owner

/-- The owners that a transition is about are members of the successor: those who add a revision,
and those whose newest fence changes. -/
structure MembersOnly (previous next : GuildCheckpoint) : Prop where
  adding : ∀ r, Adds previous next r → r.value.owner ∈ next.memberIds
  advancing : ∀ owner, previous.latestFence owner ≠ next.latestFence owner → owner ∈ next.memberIds

variable {C : Crypto} {previous next : GuildCheckpoint} {owner : NodeId}

/-! ## Fences -/

/-- The newest fence of an owner is above all of them. -/
lemma latestFence_le_iff {c : GuildCheckpoint} {n : U64} :
    c.latestFence owner ≤ n ↔ ∀ fence ∈ c.writerFences, fence.owner = owner → fence.epoch ≤ n := by
  have hfold : ∀ epochs : List U64, epochs.foldr max 0 ≤ n ↔ ∀ e ∈ epochs, e ≤ n := by
    intro epochs
    induction epochs with
    | nil => simp
    | cons e epochs ih => rw [List.foldr_cons, max_le_iff, ih, List.forall_mem_cons]
  rw [latestFence, hfold]
  simp only [List.mem_map, List.mem_filter, decide_eq_true_eq]
  constructor
  · intro h fence hfence howner
    exact h fence.epoch ⟨fence, ⟨hfence, howner⟩, rfl⟩
  · rintro h e ⟨fence, ⟨hfence, howner⟩, rfl⟩
    exact h fence hfence howner

lemma epoch_le_latestFence {c : GuildCheckpoint} {fence : WriterFence}
    (h : fence ∈ c.writerFences) : fence.epoch ≤ c.latestFence fence.owner :=
  latestFence_le_iff.mp le_rfl fence h rfl

/-- Fences are kept, so the newest one does not go back. -/
lemma Follows.latestFence_mono (h : Follows C previous next) (owner : NodeId) :
    previous.latestFence owner ≤ next.latestFence owner := by
  refine latestFence_le_iff.mpr fun fence hfence howner => ?_
  rw [← howner]
  exact epoch_le_latestFence (h.fences fence hfence)

/-! ## The check -/

lemma mem_addedBy {r : SignedRecord UserRevision} :
    r ∈ previous.addedBy next owner ↔ Adds previous next r ∧ r.value.owner = owner := by
  simp only [addedBy, List.mem_filter, decide_eq_true_eq, Adds]
  tauto

/-- What the check establishes about a member. -/
lemma checkWriter_eq_ok {m : Member} (h : previous.checkWriter next m = .ok ()) :
    (∀ r, Adds previous next r → r.value.owner = m.nodeId →
      r.value.writerEpoch = next.latestFence m.nodeId) ∧
    (previous.latestFence m.nodeId < next.latestFence m.nodeId →
      (previous.latestFence m.nodeId).checkedSucc = some (next.latestFence m.nodeId) ∧
        ∃ r, Adds previous next r ∧ r.value.owner = m.nodeId ∧
          r.value.writerEpoch = next.latestFence m.nodeId) := by
  rw [checkWriter] at h
  simp only [bind_eq_ok, reject_eq_ok, exists_unit] at h
  obtain ⟨hadvance, hsuperseded⟩ := h
  push Not at hadvance hsuperseded
  refine ⟨fun r hr howner => hsuperseded r (mem_addedBy.mpr ⟨hr, howner⟩), fun hlt => ?_⟩
  obtain ⟨hsucc, r, hr, hepoch⟩ := hadvance hlt
  obtain ⟨hadds, howner⟩ := mem_addedBy.mp hr
  exact ⟨hsucc, r, hadds, howner, hepoch⟩

lemma checkWriter_of_checkBody (h : previous.checkBody C next = .ok ())
    (howner : owner ∈ next.memberIds) :
    ∃ m ∈ next.members, m.nodeId = owner ∧ previous.checkWriter next m = .ok () := by
  rw [checkBody] at h
  simp only [bind_eq_ok, forEach_eq_ok, exists_unit] at h
  obtain ⟨-, -, hwriters, -⟩ := h
  obtain ⟨m, hm, rfl⟩ := List.mem_map.mp (List.mem_toFinset.mp howner)
  exact ⟨m, hm, rfl, hwriters m hm⟩

/-- **Members alone are held to the rule.** A transition between valid checkpoints obeys it exactly
when the owners who add revisions or advance their fences are members of the successor. -/
theorem added_by_members_iff (hnext : next.validate C = .ok ())
    (hbody : previous.checkBody C next = .ok ()) :
    AddedByMembers C previous next ↔ MembersOnly previous next := by
  have hfollows := follows_of_checkBody hbody
  constructor
  · intro h
    refine ⟨h.member, fun owner hne => ?_⟩
    obtain ⟨-, r, hadds, rfl, -⟩ := h.advance owner hne
    exact h.member r hadds
  · intro h
    refine ⟨h.adding, fun r hadds => ?_, fun owner hne => ?_⟩
    · obtain ⟨m, -, hm, hcheck⟩ := checkWriter_of_checkBody hbody (h.adding r hadds)
      obtain ⟨hwriter, hfence⟩ := writer_of_validate hnext r hadds.1
      have hepoch := (checkWriter_eq_ok hcheck).1 r hadds hm.symm
      refine ⟨hwriter, hfence, fun fence hmem howner => ?_⟩
      rw [hepoch, hm, ← howner]
      exact epoch_le_latestFence hmem
    · obtain ⟨m, -, rfl, hcheck⟩ := checkWriter_of_checkBody hbody (h.advancing owner hne)
      exact (checkWriter_eq_ok hcheck).2 ((hfollows.latestFence_mono _).lt_of_ne hne)

/-! ### A departed owner -/

/-- A second revision of the root of the small guild, under a third writer key. -/
def departedRevision : SignedRecord UserRevision :=
  let revision := smallRevision 2 22 (some firstRevisionHash) 0 0
  { revision with
    value :=
      { revision.value with
        writerEpoch := 3
        writerPublicKey := 11
        writerSignature := smallSignature 11
          47828690002775412193788045862421581383466847205530460646623619248736777687352 }
    signature := smallSignature 1
      74224497245657666873900751329815792521974597445597486773993912366400427104142 }

/-- A second checkpoint of the small guild, which node 1 has left. -/
def departedOwner : GuildCheckpoint :=
  { smallCheckpoint 2 (some firstCheckpointHash) [] [firstRevision, departedRevision] with
    members := [smallMember 2, smallMember 3]
    writerFences := [⟨⟨1⟩, 1, 9⟩, ⟨⟨1⟩, 2, 10⟩, ⟨⟨1⟩, 3, 11⟩]
    authority := some ⟨1, 2, ⟨1, .majority⟩⟩ }

/-- A store whose last accepted checkpoint is the first one. -/
def firstStore : ControlStore :=
  { ControlStore.empty with
    locks := fun _ => some ⟨1, firstCheckpointHash,
      (GuildCheckpoint.codec.encode firstCheckpoint).getD []⟩ }

theorem departed_owner_adds_revision :
    firstCheckpoint.validate .transparent = .ok () ∧ departedOwner.validate .transparent = .ok () ∧
      (smallView 2).validateCheckpointTransition .transparent firstStore departedOwner false =
        .ok () ∧
      firstCheckpoint.checkBody .transparent departedOwner = .ok () ∧
      firstCheckpoint.latestFence ⟨1⟩ = 1 ∧ departedOwner.latestFence ⟨1⟩ = 3 ∧
      ¬ AddedByMembers .transparent firstCheckpoint departedOwner := by
  refine ⟨by decide +kernel, by decide +kernel, by decide +kernel, by decide +kernel,
    by decide +kernel, by decide +kernel, fun h => ?_⟩
  have hadds : Adds firstCheckpoint departedOwner departedRevision :=
    ⟨by decide +kernel, by decide +kernel⟩
  have hdeparted : departedRevision.value.owner ∉ departedOwner.memberIds := by decide +kernel
  exact hdeparted (h.member departedRevision hadds)

theorem added_by_members_iff_second :
    AddedByMembers .transparent firstCheckpoint secondCheckpoint := by
  have howner : ∀ r ∈ secondCheckpoint.revisions, r.value.owner ∈ secondCheckpoint.memberIds := by
    decide +kernel
  refine (added_by_members_iff (by decide +kernel) (by decide +kernel)).mpr
    ⟨fun r hadds => howner r hadds.1, fun owner hne => absurd rfl hne⟩

end GuildCheckpoint

end MutualBackup

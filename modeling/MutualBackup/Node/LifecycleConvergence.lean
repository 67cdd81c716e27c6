import MutualBackup.Guild.Proposal
import MutualBackup.Node.Lifecycle

/-!
# Cleanup converges

A node proposes cleanup events one after the other, each in the state that the one before led to.
Every such run ends: a retirement lowers the number of groups that are not retired, a removal the
number of groups (`cleanupWork`).  On the way no live sector loses its cover, because the group that
is retired covers nothing alone.  Where nothing is proposed any more, no retired group is past its
window, and every group that is not retired covers a live sector that no other one covers.

That the state accepts each proposal rests on two things from outside: all active members sign it,
and its hash is not the zero array, which validation rejects as the head of the log.
-/

namespace MutualBackup

open Framework List

namespace DynamicGuildState

variable (s : DynamicGuildState)

/-! ## Runs of cleanup -/

/-- The event that a round of cleanup proposes.  The source reports an error when the sequence
numbers are exhausted; here nothing is proposed then. -/
def proposedEvent (liveSectors : Finset (Bytes 32)) : Option GuildEvent :=
  s.eventSequence.checkedSucc.bind fun sequence =>
    (s.variableGroupLifecycleKind liveSectors sequence).map fun kind =>
      { formatVersion := 1
        guildId := s.guildId
        sequence := sequence
        parent := s.eventHead
        kind := kind }

/-- What is left to clean up at most: every group is retired once and forgotten once. -/
def cleanupWork : ℕ := s.codingGroups.length + s.unretired.length

/-- A run of accepted proposals, and its number of events. -/
inductive CleanupRun (C : Crypto) (liveSectors : Finset (Bytes 32)) :
    ℕ → DynamicGuildState → Prop
  | start : CleanupRun C liveSectors 0 s
  | step {n : ℕ} {t u : DynamicGuildState} {c : QuorumGuildEvent}
      (hrun : CleanupRun C liveSectors n t) (hproposed : t.proposedEvent liveSectors = some c.event)
      (happly : t.applyEvent C c = .ok u) : CleanupRun C liveSectors (n + 1) u

/-- A group that is not retired covers the sector. -/
def Covered (sector : Bytes 32) : Prop :=
  ∃ retained ∈ s.unretired, sector ∈ informationSectors retained.group

/-- Nothing is left to clean up: no window has passed, and every group that is not retired covers a
live sector alone. -/
structure Irredundant (liveSectors : Finset (Bytes 32)) : Prop where
  retained : ∀ retained ∈ s.codingGroups, ∀ through ∈ retained.retainThroughEvent,
    s.eventSequence < through
  needed : ∀ retained ∈ s.unretired, ∃ sector ∈ liveSectors,
    sector ∈ informationSectors retained.group ∧
      ∀ other ∈ s.unretired, other ≠ retained → sector ∉ informationSectors other.group

variable {s} {t : DynamicGuildState} {C : Crypto} {liveSectors : Finset (Bytes 32)}

variable {event : GuildEvent}

lemma proposedEvent_eq_some :
    s.proposedEvent liveSectors = some event ↔ event.formatVersion = 1 ∧ event.guildId = s.guildId ∧
        event.sequence.val = s.eventSequence.val + 1 ∧ event.parent = s.eventHead ∧
        s.variableGroupLifecycleKind liveSectors event.sequence = some event.kind := by
  simp only [proposedEvent, Option.bind_eq_some_iff, Option.map_eq_some_iff]
  constructor
  · rintro ⟨sequence, hsequence, kind, hkind, rfl⟩
    exact ⟨rfl, rfl, U64.checkedSucc_eq_some.mp hsequence, rfl, hkind⟩
  · rintro ⟨hformat, hguild, hsequence, hparent, hkind⟩
    refine ⟨_, U64.checkedSucc_eq_some.mpr hsequence, _, hkind, ?_⟩
    rw [← hformat, ← hguild, ← hparent]

variable {retained : RetainedCodingGroup} {sector : Bytes 32}

/-! ## What is proposed -/

/-- A group that a proposal forgets was retired, and its window has passed. -/
lemma exists_of_readyToForget {sequence : U64} {groupId : Bytes 32}
    (h : s.variableGroupReadyToForget sequence = some groupId) :
    ∃ retained ∈ s.codingGroups, retained.group.id = groupId ∧
      ∃ through, retained.retainThroughEvent = some through ∧ through < sequence := by
  obtain ⟨retained, hmin, rfl⟩ := Option.map_eq_some_iff.mp h
  obtain ⟨hmem, hpast⟩ := mem_filter.mp (argmin_mem hmin)
  obtain ⟨through, hthrough, hlt⟩ := of_decide_eq_true hpast
  exact ⟨retained, hmem, rfl, through, hthrough, hlt⟩

/-- Where nothing is proposed, nothing is left to clean up. -/
lemma irredundant_of_proposes_nothing (hwf : s.WellFormed C)
    (hlast : s.eventSequence.val + 1 < 2 ^ 64) (h : s.proposedEvent liveSectors = none) :
    s.Irredundant liveSectors := by
  obtain ⟨sequence, hsequence⟩ : ∃ sequence : U64, sequence.val = s.eventSequence.val + 1 :=
    ⟨⟨_, hlast⟩, rfl⟩
  rw [proposedEvent, U64.checkedSucc_eq_some.mpr hsequence, Option.bind_some,
    Option.map_eq_none_iff, variableGroupLifecycleKind] at h
  split at h
  · cases h
  · rename_i hforget
    rw [Option.map_eq_none_iff, redundantGroup, argmin_eq_none] at h
    constructor
    · intro retained hmem through hthrough
      have hpast := variableGroupReadyToForget_eq_none.mp hforget retained hmem through hthrough
      rw [Fin.lt_def] at hpast ⊢
      omega
    · intro retained hmem
      have hnot : ¬ s.Redundant liveSectors retained := by
        rw [← mem_redundant_iff hwf, h]
        exact not_mem_nil
      rw [Redundant, and_iff_right hmem] at hnot
      push Not at hnot
      exact hnot

/-! ## The state accepts it -/

/-- The state with other groups, moved to a later event. -/
lemma WellFormed.withGroups (hwf : s.WellFormed C) {head : Bytes 32}
    {groups : List RetainedCodingGroup} (hle : s.eventSequence ≤ event.sequence) (hhead : head ≠ 0)
    (hasc : Ascending (fun g => g.group.id) groups)
    (hsound : ∀ g ∈ groups, GroupSound C s.guildId event.sequence g) :
    (({ s with codingGroups := groups } : DynamicGuildState).atEvent event head).WellFormed C :=
  { format := hwf.format
    guildId_ne := hwf.guildId_ne
    eventHead_ne := hhead
    membershipEpoch_ne := hwf.membershipEpoch_ne
    members_ne := hwf.members_ne
    members_length := hwf.members_length
    members_ascending := hwf.members_ascending
    members_sound := fun m hm => (hwf.members_sound m hm).mono hle
    quorum := hwf.quorum
    writers := hwf.writers.mono hle
    recoveries := hwf.recoveries.mono hle
    groups_ascending := hasc
    groups_sound := hsound }

/-- A group that is retired at an event through that event stays valid. -/
lemma GroupSound.retire {guildId : Bytes 32} {now sequence : U64} {g : RetainedCodingGroup}
    (h : GroupSound C guildId now g) (hle : now ≤ sequence) :
    GroupSound C guildId sequence (retiredEntry g sequence sequence) where
  valid := h.valid
  guildId_eq := h.guildId_eq
  added_ne := h.added_ne
  added_le := h.added_le.trans hle
  window := rfl
  retired := by
    rintro event ⟨⟩
    exact ⟨h.added_le.trans hle, le_rfl⟩
  retained := by
    rintro event ⟨⟩
    exact le_rfl

section

variable (hwf : s.WellFormed C)

include hwf

/-- A proposal has an effect, and its state is well formed. -/
lemma advances_of_proposal {head : Bytes 32} (hproposed : s.proposedEvent liveSectors = some event)
    (hhash : event.hash C = .ok head) (hhead : head ≠ 0) : ∃ u, s.Advances C event u := by
  obtain ⟨-, -, hsequence, -, hkind⟩ := proposedEvent_eq_some.mp hproposed
  have hle : s.eventSequence ≤ event.sequence := by
    rw [Fin.le_def]
    omega
  have hfind : ∀ retained ∈ s.codingGroups, s.groupAt retained.group.id = some retained :=
    fun retained hmem => (mem_of_groupAt hwf.groups_ascending).mpr ⟨hmem, rfl⟩
  unfold variableGroupLifecycleKind at hkind
  split at hkind
  · rename_i groupId hforget
    obtain ⟨retained, hmem, hid, through, hthrough, hpast⟩ := exists_of_readyToForget hforget
    refine ⟨_, { s with codingGroups := s.codingGroups.eraseP fun g => g.group.id = groupId },
      head, ?_, hhash, rfl, ?_⟩
    · rw [← Option.some.inj hkind, ← hid]
      exact .forgetCodingGroup (hfind retained hmem) hthrough hpast
    · refine hwf.withGroups hle hhead hwf.groups_ascending.eraseP fun g hg => ?_
      exact (hwf.groups_sound g (mem_of_mem_eraseP hg)).mono hle
  · obtain ⟨candidate, hcandidate, hretire⟩ := Option.map_eq_some_iff.mp hkind
    obtain ⟨hmem, hopen⟩ :=
      mem_unretired.mp ((redundantGroup_eq_some_iff hwf).mp hcandidate).1.1
    refine ⟨_, { s with
      codingGroups := modifyFirst (fun g => g.group.id = candidate.group.id)
        (fun g => retiredEntry g event.sequence event.sequence) s.codingGroups },
      head, ?_, hhash, rfl, ?_⟩
    · rw [← hretire]
      exact .retireCodingGroup (hfind candidate hmem) hopen le_rfl
    · refine hwf.withGroups hle hhead (hwf.groups_ascending.modifyFirst fun _ => rfl) fun g hg => ?_
      rw [hwf.groups_ascending.mem_modifyFirst fun x hx => of_decide_eq_true hx] at hg
      rcases hg with ⟨x, hx, -, rfl⟩ | ⟨hg, -⟩
      · exact GroupSound.retire (hwf.groups_sound x hx) hle
      · exact (hwf.groups_sound g hg).mono hle

/-- The signatures of all members show that the event has an encoding, hence a hash. -/
lemma AllSign.hash {signatures : List MemberSignature} (hall : s.AllSign C event signatures) :
    ∃ head, event.hash C = .ok head := by
  obtain ⟨required, hrequired⟩ := hwf.quorum
  have hpos : s.activeMembers ≠ [] := by
    intro hnil
    have hbounds := QuorumPolicy.required_bounds hrequired
    rw [hnil, length_nil] at hbounds
    omega
  have hsignatures : signatures ≠ [] := by
    rintro rfl
    exact hpos (map_eq_nil_iff.mp hall.signers_eq.symm)
  obtain ⟨signature, hmem⟩ := exists_mem_of_ne_nil _ hsignatures
  have hverified := hall.verified signature hmem
  simp only [verifyGuildEventSignature, bind_eq_ok] at hverified
  obtain ⟨key, -, -, -, bytes, hbytes, -⟩ := hverified
  exact ⟨_, bind_eq_ok.mpr ⟨bytes, hbytes, rfl⟩⟩

/-- **A proposal that all members sign is accepted.** -/
lemma applyEvent_of_proposal (hhash : ∀ head, event.hash C = .ok head → head ≠ 0)
    (hproposed : s.proposedEvent liveSectors = some event) {signatures : List MemberSignature}
    (hall : s.AllSign C event signatures) : Succeeds (s.applyEvent C ⟨event, signatures⟩) := by
  obtain ⟨head, hhead⟩ := hall.hash hwf
  obtain ⟨u, hu⟩ := advances_of_proposal hwf hproposed hhead (hhash head hhead)
  obtain ⟨hformat, hguild, hsequence, hparent, hkind⟩ := proposedEvent_eq_some.mp hproposed
  have hvalid : validEventFormat event := by
    rcases variableGroupLifecycleKind_cases hkind with ⟨_, -, hforget⟩ | ⟨-, _, -, hretire⟩
    · rw [validEventFormat, hforget]
      exact decide_eq_true hformat
    · rw [validEventFormat, hretire]
      exact decide_eq_true hformat
  exact ⟨u, applyEvent_eq_ok.mpr
    ⟨hwf, ⟨hvalid, hguild, hsequence, hparent⟩, hall.certified hwf hu, hu⟩⟩

end

/-! ## What an accepted proposal does -/

section Step

variable {c : QuorumGuildEvent}
  (hkind : s.variableGroupLifecycleKind liveSectors c.event.sequence = some c.event.kind)
  (h : s.applyEvent C c = .ok t)

include hkind h

/-- No live sector loses its cover. -/
lemma covered_of_proposal (hlive : sector ∈ liveSectors) (hcovered : s.Covered sector) :
    t.Covered sector := by
  have hwf := (applyEvent_eq_ok.mp h).1
  have hkept : ∀ retained ∈ s.unretired, ¬ c.event.kind.Retires retained.group.id →
      retained ∈ t.unretired := by
    intro retained hmem hnot
    obtain ⟨hmem, hopen⟩ := mem_unretired.mp hmem
    exact mem_unretired.mpr ((mem_unretired_iff hkind h retained).mpr ⟨hmem, hopen, hnot⟩)
  obtain ⟨retained, hmem, hsector⟩ := hcovered
  by_cases hretires : c.event.kind.Retires retained.group.id
  · obtain ⟨through, hretire⟩ := hretires
    rcases variableGroupLifecycleKind_cases hkind with
      ⟨_, -, hforget⟩ | ⟨-, candidate, hcandidate, hcand⟩
    · cases hretire.symm.trans hforget
    have hid : retained.group.id = candidate.group.id :=
      (GuildEventKind.retireCodingGroup.inj (hretire.symm.trans hcand)).1
    obtain ⟨⟨hcandmem, hredundant⟩, -⟩ := (redundantGroup_eq_some_iff hwf).mp hcandidate
    obtain rfl := hwf.eq_of_unretired hmem hcandmem hid
    obtain ⟨other, hother, hne, hcovers⟩ := hredundant sector hlive hsector
    refine ⟨other, hkept other hother ?_, hcovers⟩
    rintro ⟨through', hretire'⟩
    have hsame : retained.group.id = other.group.id :=
      (GuildEventKind.retireCodingGroup.inj (hretire.symm.trans hretire')).1
    exact hne (hwf.eq_of_unretired hother hmem hsame.symm)
  · exact ⟨retained, hkept retained hmem hretires, hsector⟩

/-- The work that is left goes down by one. -/
lemma cleanupWork_of_proposal : t.cleanupWork + 1 = s.cleanupWork := by
  have hwf := (applyEvent_eq_ok.mp h).1
  have hwf' : t.WellFormed C := wellFormed_of_applyEvent h
  have hunretired : ∀ retained, retained ∈ t.unretired ↔
      retained ∈ s.unretired ∧ ¬ c.event.kind.Retires retained.group.id := by
    intro retained
    rw [mem_unretired, mem_unretired, mem_unretired_iff hkind h retained, and_assoc]
  obtain ⟨-, -, -, changed, head, heffect, -, rfl, -⟩ := applyEvent_eq_ok.mp h
  rcases variableGroupLifecycleKind_cases hkind with
    ⟨groupId, -, hforget⟩ | ⟨-, candidate, hcandidate, hretire⟩
  · have hsame : (changed.atEvent c.event head).unretired.Perm s.unretired := by
      refine (perm_ext_iff_of_nodup hwf'.nodup_unretired hwf.nodup_unretired).mpr fun g => ?_
      rw [hunretired, and_iff_left]
      rintro ⟨through, hretire⟩
      cases hretire.symm.trans hforget
    rw [cleanupWork, cleanupWork, hsame.length_eq]
    rw [hforget] at heffect
    cases heffect with
    | forgetCodingGroup hfind =>
      have hmem := mem_of_find?_eq_some hfind
      have hlength := length_eraseP_of_mem hmem (find?_some hfind)
      have hpos := length_pos_of_mem hmem
      show (s.codingGroups.eraseP _).length + _ + 1 = _
      rw [hlength]
      omega
  · have hmem := ((redundantGroup_eq_some_iff hwf).mp hcandidate).1.1
    have hperm : (changed.atEvent c.event head).unretired.Perm (s.unretired.erase candidate) := by
      refine (perm_ext_iff_of_nodup hwf'.nodup_unretired (hwf.nodup_unretired.erase _)).mpr
        fun g => ?_
      rw [hunretired, hwf.nodup_unretired.mem_erase_iff, and_comm]
      refine and_congr_left fun hg => not_congr ?_
      rw [hretire]
      constructor
      · rintro ⟨through, hsame⟩
        exact hwf.eq_of_unretired hg hmem (GuildEventKind.retireCodingGroup.inj hsame).1.symm
      · rintro rfl
        exact ⟨_, rfl⟩
    have hpos := length_pos_of_mem hmem
    rw [cleanupWork, cleanupWork, hperm.length_eq, length_erase_of_mem hmem]
    rw [hretire] at heffect
    cases heffect with
    | retireCodingGroup hfind =>
      show (modifyFirst _ _ s.codingGroups).length + _ + 1 = _
      rw [length_modifyFirst]
      omega

end Step

/-! ## Runs -/

/-- What holds after a run of `n` events. -/
structure CleanedUp (C : Crypto) (liveSectors : Finset (Bytes 32)) (s : DynamicGuildState) (n : ℕ)
    (t : DynamicGuildState) : Prop where
  wellFormed : t.WellFormed C
  sequence : t.eventSequence.val = s.eventSequence.val + n
  work : t.cleanupWork + n = s.cleanupWork
  covered : ∀ sector ∈ liveSectors, s.Covered sector → t.Covered sector

lemma CleanupRun.cleanedUp (hwf : s.WellFormed C) {n : ℕ} (hrun : s.CleanupRun C liveSectors n t) :
    CleanedUp C liveSectors s n t := by
  induction hrun with
  | start => exact ⟨hwf, rfl, rfl, fun _ _ h => h⟩
  | @step n t u c hrun hproposed happly ih =>
    obtain ⟨-, -, hsequence, -, hkind⟩ := proposedEvent_eq_some.mp hproposed
    have hwork := cleanupWork_of_proposal hkind happly
    have hadvances := (applyEvent_eq_ok.mp happly).2.2.2
    refine ⟨wellFormed_of_applyEvent happly, ?_, ?_, fun sector hlive hcovered => ?_⟩
    · rw [hadvances.eventSequence_eq, hsequence, ih.sequence]
      omega
    · have := ih.work
      omega
    · exact covered_of_proposal hkind happly hlive (ih.covered sector hlive hcovered)

/-- **Cleanup converges to an irredundant cover.**  Every run of accepted proposals is bounded,
keeps the cover of every live sector and can go on while something is proposed; where nothing is,
the cover is irredundant; and there is a run that gets there. -/
theorem lifecycle_cleanup_converges (C : Crypto) (s : DynamicGuildState)
    (hvalid : s.validate C = .ok ()) (liveSectors : Finset (Bytes 32))
    (hroom : s.eventSequence.val + s.cleanupWork + 1 < 2 ^ 64)
    (hhash : ∀ n t event head, s.CleanupRun C liveSectors n t →
      t.proposedEvent liveSectors = some event → event.hash C = .ok head → head ≠ 0)
    (hsign : ∀ n t event, s.CleanupRun C liveSectors n t →
      t.proposedEvent liveSectors = some event → ∃ signatures, t.AllSign C event signatures) :
    (∀ n t, s.CleanupRun C liveSectors n t → n ≤ s.cleanupWork ∧
        (∀ sector ∈ liveSectors, s.Covered sector → t.Covered sector) ∧
        (∀ event signatures, t.proposedEvent liveSectors = some event →
          t.AllSign C event signatures → Succeeds (t.applyEvent C ⟨event, signatures⟩)) ∧
        (t.proposedEvent liveSectors = none → t.Irredundant liveSectors)) ∧
      ∃ n t, s.CleanupRun C liveSectors n t ∧ t.proposedEvent liveSectors = none := by
  have hwf := validate_eq_ok.mp hvalid
  have hrun : ∀ n t, s.CleanupRun C liveSectors n t → CleanedUp C liveSectors s n t :=
    fun n t h => h.cleanedUp hwf
  have haccepts : ∀ n t event signatures, s.CleanupRun C liveSectors n t →
      t.proposedEvent liveSectors = some event → t.AllSign C event signatures →
      Succeeds (t.applyEvent C ⟨event, signatures⟩) := by
    intro n t event signatures h hproposed hall
    exact applyEvent_of_proposal (hrun n t h).wellFormed
      (fun head => hhash n t event head h hproposed) hproposed hall
  refine ⟨fun n t h => ?_, ?_⟩
  · have hclean := hrun n t h
    have hwork := hclean.work
    have hsequence := hclean.sequence
    exact ⟨by omega, hclean.covered, fun event signatures => haccepts n t event signatures h,
      irredundant_of_proposes_nothing hclean.wellFormed (by omega)⟩
  -- A run is extended while something is proposed; the work left bounds how often.
  · have hextend : ∀ left n t, s.CleanupRun C liveSectors n t → t.cleanupWork = left →
        ∃ n t, s.CleanupRun C liveSectors n t ∧ t.proposedEvent liveSectors = none := by
      intro left
      induction left with
      | zero =>
        intro n t h hleft
        refine ⟨n, t, h, ?_⟩
        by_contra hsome
        obtain ⟨event, hproposed⟩ := Option.ne_none_iff_exists'.mp hsome
        obtain ⟨signatures, hall⟩ := hsign n t event h hproposed
        obtain ⟨u, hu⟩ := haccepts n t event signatures h hproposed hall
        have hwork := (hrun _ _ (.step h hproposed hu)).work
        have := (hrun n t h).work
        omega
      | succ left ih =>
        intro n t h hleft
        by_cases hproposed : t.proposedEvent liveSectors = none
        · exact ⟨n, t, h, hproposed⟩
        · obtain ⟨event, hproposed⟩ := Option.ne_none_iff_exists'.mp hproposed
          obtain ⟨signatures, hall⟩ := hsign n t event h hproposed
          obtain ⟨u, hu⟩ := haccepts n t event signatures h hproposed hall
          have hstep : s.CleanupRun C liveSectors (n + 1) u := .step h hproposed hu
          have hwork := (hrun _ _ hstep).work
          have := (hrun n t h).work
          exact ih (n + 1) u hstep (by omega)
    exact hextend _ 0 s .start rfl

/-! ### Two groups for one sector -/

/-- An event of cleanup has an encoding. -/
lemma exists_encode_of_proposal (hproposed : s.proposedEvent liveSectors = some event) :
    ∃ bytes, GuildEvent.codec.encode event = some bytes := by
  obtain ⟨-, -, -, -, hkind⟩ := proposedEvent_eq_some.mp hproposed
  obtain ⟨formatVersion, guildId, sequence, parent, kind⟩ := event
  dsimp only at hkind
  rcases variableGroupLifecycleKind_cases hkind with ⟨_, -, rfl⟩ | ⟨-, _, -, rfl⟩
  · exact ⟨_, rfl⟩
  · exact ⟨_, rfl⟩

/-- With the transparent primitives the members can sign it. -/
lemma exists_allSign_transparent (hwf : s.WellFormed .transparent)
    (hproposed : s.proposedEvent liveSectors = some event) :
    ∃ signatures, s.AllSign .transparent event signatures := by
  obtain ⟨bytes, hbytes⟩ := exists_encode_of_proposal hproposed
  refine ⟨s.activeMembers.map fun m => transparentEventSignature event m.nodeId, ?_, ?_⟩
  · rw [map_map]
    rfl
  · intro signature hsignature
    obtain ⟨m, hm, rfl⟩ := mem_map.mp hsignature
    obtain ⟨d, hd, -, rfl⟩ := mem_activeMembers.mp hm
    have hsound := hwf.members_sound d hd
    simp only [verifyGuildEventSignature, bind_eq_ok, okOr_eq_ok, reject_eq_ok, exists_unit,
      Crypto.verifyingKey_eq_some, mapErr_eq_ok]
    refine ⟨_, ⟨hsound.isPoint, rfl⟩, hsound.not_weak, bytes, ?_, ?_, ?_⟩
    · rw [canonicalBytes, hbytes]
      rfl
    · simp [transparentEventSignature, transparentSignature]
    · simp [transparentEventSignature, Crypto.transparent, hbytes]

theorem lifecycle_cleanup_converges_both :
    bothState.validate .transparent = .ok () ∧
      bothState.cleanupWork = 4 ∧ (bothState.proposedEvent {6}).isSome ∧
      ∃ n t, n ≤ 4 ∧ bothState.CleanupRun .transparent {6} n t ∧ t.Covered 6 ∧
        t.Irredundant {6} := by
  have hvalid : bothState.validate .transparent = .ok () := by decide +kernel
  have hwf := validate_eq_ok.mp hvalid
  have hwork : bothState.cleanupWork = 4 := by decide +kernel
  have hcovered : bothState.Covered 6 := by
    have hprotected : bothState.Protected 6 := by decide +kernel
    obtain ⟨retained, hmem, hopen, hsector, -⟩ := hprotected
    exact ⟨retained, mem_unretired.mpr ⟨hmem, hopen⟩, hsector⟩
  have hhash : ∀ (event : GuildEvent) head, event.hash .transparent = .ok head →
      head ≠ 0 := by
    intro event head h
    obtain ⟨bytes, -, hhead⟩ := bind_eq_ok.mp h
    rw [← pure_eq_ok.mp hhead]
    exact digest_ne_zero _
  obtain ⟨hruns, n, t, hrun, hnone⟩ := lifecycle_cleanup_converges .transparent
    bothState hvalid {6} (by decide +kernel) (fun _ _ event head _ _ => hhash event head)
    (fun n t event hrun hproposed =>
      exists_allSign_transparent (hrun.cleanedUp hwf).wellFormed hproposed)
  obtain ⟨hbound, hkeeps, -, hdone⟩ := hruns n t hrun
  rw [hwork] at hbound
  exact ⟨hvalid, hwork, by decide +kernel, n, t, hbound, hrun,
    hkeeps 6 (Finset.mem_singleton_self 6) hcovered, hdone hnone⟩

end DynamicGuildState

end MutualBackup

import Mathlib.Data.List.MinMax
import Mathlib.Data.Prod.Lex
import MutualBackup.Guild.Retention

/-!
# Cleanup of coding groups

`variable_group_lifecycle_kind` of `network/p2p.rs` proposes the next event that frees a coding
group.  A group whose window has passed is forgotten.  Otherwise a group is retired whose live
sectors are all covered by another group that is not retired; of several such groups it is the one
with the fewest live sectors, then the oldest.

The count of the groups that cover a sector does not look at where they are placed.  So of two
groups that cover a sector, one on current members and one that is stale since a member left, it is
the older one that goes: `lifecycle_keeps_protection_iff` says that protection is kept exactly when
a group is there to be forgotten, or the candidate for retirement is not the only group on current
members of a live sector, and in `older_group_retired` it is lost.
-/

namespace MutualBackup

open Framework List

namespace DynamicGuildState

/-! ## The proposal -/

/-- The sectors with a payload that a group codes. -/
def informationSectors (group : CodingGroupV2) : List (Bytes 32) := group.roles.filterMap fun
    | .information role => if role.sector.virtualZero then none else some role.sector.id
    | .parity _ => none

/-- The live sectors that a group covers.  The source keeps them in a map by the identifier of the
group, which is unique. -/
def liveByGroup (liveSectors : Finset (Bytes 32)) (retained : RetainedCodingGroup) :
    Finset (Bytes 32) :=
  (informationSectors retained.group).toFinset ∩ liveSectors

variable (s : DynamicGuildState)

/-- The groups that are not retired. -/
def unretired : List RetainedCodingGroup :=
  s.codingGroups.filter fun retained => retained.retiredAtEvent = none

/-- How many groups that are not retired cover a live sector. -/
def coverage (liveSectors : Finset (Bytes 32)) (sector : Bytes 32) : ℕ :=
  s.unretired.countP fun retained => sector ∈ liveByGroup liveSectors retained

/-- `variable_group_ready_to_forget`. -/
def variableGroupReadyToForget (sequence : U64) : Option (Bytes 32) :=
  ((s.codingGroups.filter fun retained =>
      isSomeAnd retained.retainThroughEvent fun retainThrough => retainThrough < sequence).argmin
    fun retained => toLex (retained.addedAtEvent, retained.group.id)).map
      fun retained => retained.group.id

/-- The candidate for retirement: it covers nothing, or nothing that only one group covers. -/
def redundantGroup (liveSectors : Finset (Bytes 32)) : Option RetainedCodingGroup :=
  (s.unretired.filter fun retained =>
      liveByGroup liveSectors retained = ∅ ∨
        ((liveByGroup liveSectors retained).filter fun sector =>
          ¬ 1 < s.coverage liveSectors sector) = ∅).argmin
    fun retained => toLex ((liveByGroup liveSectors retained).card,
      toLex (retained.addedAtEvent, retained.group.id))

/-- `variable_group_lifecycle_kind`. -/
def variableGroupLifecycleKind (liveSectors : Finset (Bytes 32)) (sequence : U64) :
    Option GuildEventKind :=
  match s.variableGroupReadyToForget sequence with
  | some groupId => some (.forgetCodingGroup groupId)
  | none => (s.redundantGroup liveSectors).map fun candidate =>
    .retireCodingGroup candidate.group.id sequence

/-! ## Protection -/

/-- The group is placed on current members. -/
def Placed (group : CodingGroupV2) : Prop := s.validateCurrentGroupPlacement group = .ok ()
  deriving Decidable

/-- The sector has an unretired group that is placed on current members. -/
def Protected (sector : Bytes 32) : Prop :=
  ∃ retained ∈ s.codingGroups, retained.retiredAtEvent = none ∧
    sector ∈ informationSectors retained.group ∧ s.Placed retained.group
  deriving Decidable

/-- The sector has such a group besides the one with the identifier. -/
def ProtectedWithout (groupId sector : Bytes 32) : Prop :=
  ∃ retained ∈ s.codingGroups, retained.group.id ≠ groupId ∧ retained.retiredAtEvent = none ∧
    sector ∈ informationSectors retained.group ∧ s.Placed retained.group
  deriving Decidable

/-- The group is not retired, and another such group covers each live sector that it covers. -/
def Redundant (liveSectors : Finset (Bytes 32)) (retained : RetainedCodingGroup) : Prop :=
  retained ∈ s.unretired ∧
    ∀ sector ∈ liveSectors, sector ∈ informationSectors retained.group →
      ∃ other ∈ s.unretired, other ≠ retained ∧ sector ∈ informationSectors other.group

/-- The redundant group with the fewest live sectors, then the oldest, then the one with the least
identifier. -/
def FirstRedundant (liveSectors : Finset (Bytes 32)) (retained : RetainedCodingGroup) : Prop :=
  s.Redundant liveSectors retained ∧ ∀ other, s.Redundant liveSectors other →
    toLex ((liveByGroup liveSectors retained).card,
        toLex (retained.addedAtEvent, retained.group.id)) ≤
      toLex ((liveByGroup liveSectors other).card, toLex (other.addedAtEvent, other.group.id))

variable {s} {t : DynamicGuildState} {C : Crypto}

/-- The placement of a group depends on the roster alone. -/
lemma placed_congr (h : t.members = s.members) (group : CodingGroupV2) :
    t.Placed group ↔ s.Placed group := by
  simp only [Placed, validateCurrentGroupPlacement, requireActiveMember, h]

/-! ## What is proposed -/

variable {liveSectors : Finset (Bytes 32)} {retained : RetainedCodingGroup} {sector : Bytes 32}
  {sequence : U64}

lemma mem_unretired :
    retained ∈ s.unretired ↔ retained ∈ s.codingGroups ∧ retained.retiredAtEvent = none := by
  simp only [unretired, mem_filter, decide_eq_true_eq]

lemma mem_liveByGroup :
    sector ∈ liveByGroup liveSectors retained ↔
      sector ∈ informationSectors retained.group ∧ sector ∈ liveSectors := by
  rw [liveByGroup, Finset.mem_inter, mem_toFinset]

lemma WellFormed.nodup_unretired (hwf : s.WellFormed C) : s.unretired.Nodup :=
  (Nodup.of_map _ hwf.groups_ascending.nodup_map).filter _

/-- The groups that are not retired have different identifiers. -/
lemma WellFormed.eq_of_unretired (hwf : s.WellFormed C) {other : RetainedCodingGroup}
    (hretained : retained ∈ s.unretired) (hother : other ∈ s.unretired)
    (hid : retained.group.id = other.group.id) : retained = other :=
  hwf.groups_ascending.eq_of_key (mem_unretired.mp hretained).1 (mem_unretired.mp hother).1 hid

/-- A group is ready to be forgotten when the window of some group has passed. -/
lemma variableGroupReadyToForget_eq_none :
    s.variableGroupReadyToForget sequence = none ↔
      ∀ retained ∈ s.codingGroups, ∀ through ∈ retained.retainThroughEvent,
        ¬ through < sequence := by
  rw [variableGroupReadyToForget, Option.map_eq_none_iff, argmin_eq_none, filter_eq_nil_iff]
  simp [isSomeAnd]

/-- A sector of a group is counted more than once when another group covers it. -/
lemma one_lt_coverage_iff (hwf : s.WellFormed C) (hretained : retained ∈ s.unretired)
    (hsector : sector ∈ liveByGroup liveSectors retained) :
    1 < s.coverage liveSectors sector ↔
      ∃ other ∈ s.unretired, other ≠ retained ∧ sector ∈ informationSectors other.group := by
  have hlive := (mem_liveByGroup.mp hsector).2
  set covering := s.unretired.filter fun retained => sector ∈ liveByGroup liveSectors retained
    with hcovering
  have hmem : retained ∈ covering := mem_filter.mpr ⟨hretained, decide_eq_true hsector⟩
  have hlength := length_erase_of_mem hmem
  have hothers : 1 < s.coverage liveSectors sector ↔ covering.erase retained ≠ [] := by
    rw [coverage, countP_eq_length_filter, ← hcovering, ← length_pos_iff]
    omega
  rw [hothers]
  constructor
  · intro hne
    obtain ⟨other, hother⟩ := exists_mem_of_ne_nil _ hne
    obtain ⟨hne, hother⟩ := (hwf.nodup_unretired.filter _).mem_erase_iff.mp hother
    obtain ⟨hother, hcovers⟩ := mem_filter.mp hother
    exact ⟨other, hother, hne, (mem_liveByGroup.mp (of_decide_eq_true hcovers)).1⟩
  · rintro ⟨other, hother, hne, hcovers⟩
    refine ne_nil_of_mem ((hwf.nodup_unretired.filter _).mem_erase_iff.mpr ⟨hne, ?_⟩)
    exact mem_filter.mpr ⟨hother, decide_eq_true (mem_liveByGroup.mpr ⟨hcovers, hlive⟩)⟩

/-- The groups among which the candidate is chosen. -/
lemma mem_redundant_iff (hwf : s.WellFormed C) :
    (retained ∈ s.unretired.filter fun retained => liveByGroup liveSectors retained = ∅ ∨
        ((liveByGroup liveSectors retained).filter fun sector =>
          ¬ 1 < s.coverage liveSectors sector) = ∅) ↔ s.Redundant liveSectors retained := by
  rw [mem_filter, decide_eq_true_eq, Redundant]
  refine and_congr_right fun hmem => ?_
  -- a group without live sectors has none that is counted once
  rw [or_iff_right_of_imp fun hempty => by rw [hempty, Finset.filter_empty],
    Finset.filter_eq_empty_iff]
  constructor
  · intro hcounted sector hlive hsector
    have hcovers := mem_liveByGroup.mpr ⟨hsector, hlive⟩
    exact (one_lt_coverage_iff hwf hmem hcovers).mp (not_not.mp (hcounted hcovers))
  · intro hcovered sector hcovers
    obtain ⟨hsector, hlive⟩ := mem_liveByGroup.mp hcovers
    exact not_not.mpr ((one_lt_coverage_iff hwf hmem hcovers).mpr (hcovered sector hlive hsector))

/-- **The candidate for retirement** is the first redundant group. -/
lemma redundantGroup_eq_some_iff (hwf : s.WellFormed C) :
    s.redundantGroup liveSectors = some retained ↔ s.FirstRedundant liveSectors retained := by
  rw [redundantGroup, argmin_eq_some_iff, mem_redundant_iff hwf, FirstRedundant]
  simp only [mem_redundant_iff hwf]
  refine and_congr_right fun hretained => ⟨fun h => h.1, fun h => ⟨h, fun other hother hle => ?_⟩⟩
  -- two groups of one rank have one identifier
  have hrank := congrArg (fun rank => (ofLex (ofLex rank).2).2) (le_antisymm (h other hother) hle)
  rw [hwf.eq_of_unretired hretained.1 hother.1 hrank]

/-- A proposal is a removal, or the retirement of a group through the event itself. -/
lemma variableGroupLifecycleKind_cases {kind : GuildEventKind}
    (h : s.variableGroupLifecycleKind liveSectors sequence = some kind) :
    (∃ groupId, s.variableGroupReadyToForget sequence = some groupId ∧
        kind = .forgetCodingGroup groupId) ∨
      s.variableGroupReadyToForget sequence = none ∧
        ∃ candidate, s.redundantGroup liveSectors = some candidate ∧
          kind = .retireCodingGroup candidate.group.id sequence := by
  unfold variableGroupLifecycleKind at h
  split at h
  · rename_i hready
    exact .inl ⟨_, hready, (Option.some.inj h).symm⟩
  · rename_i hnone
    obtain ⟨candidate, hcandidate, rfl⟩ := Option.map_eq_some_iff.mp h
    exact .inr ⟨hnone, candidate, hcandidate, rfl⟩

variable {c : QuorumGuildEvent}

section

variable (hkind : s.variableGroupLifecycleKind liveSectors c.event.sequence = some c.event.kind)
  (h : s.applyEvent C c = .ok t)

include hkind h

/-- Neither changes the roster. -/
lemma members_of_proposal : t.members = s.members := by
  obtain ⟨-, -, -, changed, head, heffect, -, rfl, -⟩ := applyEvent_eq_ok.mp h
  show changed.members = s.members
  rcases variableGroupLifecycleKind_cases hkind with ⟨_, -, hforget⟩ | ⟨-, _, -, hretire⟩
  · rw [hforget] at heffect
    cases heffect
    rfl
  · rw [hretire] at heffect
    cases heffect
    rfl

/-- The groups that are not retired after an accepted proposal: the ones before, without the one it
retires.  A group that is forgotten was retired before. -/
lemma mem_unretired_iff (retained : RetainedCodingGroup) :
    (retained ∈ t.codingGroups ∧ retained.retiredAtEvent = none) ↔
      retained ∈ s.codingGroups ∧ retained.retiredAtEvent = none ∧
        ¬ c.event.kind.Retires retained.group.id := by
  obtain ⟨hwf, -, -, -⟩ := applyEvent_eq_ok.mp h
  have hwf' : t.WellFormed C := wellFormed_of_applyEvent h
  have hold : s.groupAt retained.group.id = some retained ↔ retained ∈ s.codingGroups := by
    rw [mem_of_groupAt hwf.groups_ascending, and_iff_left rfl]
  have hnew : t.groupAt retained.group.id = some retained ↔ retained ∈ t.codingGroups := by
    rw [mem_of_groupAt hwf'.groups_ascending, and_iff_left rfl]
  have hwindow : retained ∈ s.codingGroups →
      retained.retiredAtEvent.isSome = retained.retainThroughEvent.isSome :=
    fun hmem => (hwf.groups_sound retained hmem).window
  have hstep := groupStep_of_applyEvent h retained.group.id
  rw [← hold, ← hnew]
  rw [← hold] at hwindow
  generalize s.groupAt retained.group.id = old at hstep hwindow
  generalize t.groupAt retained.group.id = new at hstep
  cases hstep with
  | add hadds =>
    obtain ⟨transcript, hadds⟩ := hadds
    rcases variableGroupLifecycleKind_cases hkind with ⟨_, -, hforget⟩ | ⟨-, _, -, hretire⟩
    · rw [hforget] at hadds
      cases hadds
    · rw [hretire] at hadds
      cases hadds
  | retire hretire =>
    constructor
    · rintro ⟨hentry, hopen⟩
      rw [← Option.some.inj hentry] at hopen
      cases hopen
    · rintro ⟨-, -, hnot⟩
      exact absurd ⟨_, hretire⟩ hnot
  | forget _ hretained =>
    constructor
    · rintro ⟨hentry, -⟩
      cases hentry
    · rintro ⟨hentry, hopen, -⟩
      have hsome := hwindow hentry
      rw [← Option.some.inj hentry] at hsome hopen
      rw [hopen, hretained] at hsome
      cases hsome
  | idle _ hretires => simp only [hretires, not_false_eq_true, and_true]

/-- What protects a sector after an accepted proposal. -/
lemma protected_iff (sector : Bytes 32) :
    t.Protected sector ↔ ∃ retained ∈ s.codingGroups, retained.retiredAtEvent = none ∧
      ¬ c.event.kind.Retires retained.group.id ∧
      sector ∈ informationSectors retained.group ∧ s.Placed retained.group := by
  have hplaced := placed_congr (members_of_proposal hkind h)
  constructor
  · rintro ⟨retained, hmem, hopen, hsector, hretained⟩
    obtain ⟨hmem, hopen, hkept⟩ := (mem_unretired_iff hkind h retained).mp ⟨hmem, hopen⟩
    exact ⟨retained, hmem, hopen, hkept, hsector, (hplaced _).mp hretained⟩
  · rintro ⟨retained, hmem, hopen, hkept, hsector, hretained⟩
    obtain ⟨hmem, hopen⟩ := (mem_unretired_iff hkind h retained).mpr ⟨hmem, hopen, hkept⟩
    exact ⟨retained, hmem, hopen, hsector, (hplaced _).mpr hretained⟩

/-- A removal keeps what was protected. -/
lemma protected_of_forget {groupId : Bytes 32}
    (hforget : c.event.kind = .forgetCodingGroup groupId) (hprotected : s.Protected sector) :
    t.Protected sector := by
  obtain ⟨retained, hmem, hopen, hsector, hplaced⟩ := hprotected
  refine (protected_iff hkind h sector).mpr ⟨retained, hmem, hopen, ?_, hsector, hplaced⟩
  rintro ⟨through, hretire⟩
  cases hretire.symm.trans hforget

/-- After a retirement, what the other groups protect is protected. -/
lemma protected_iff_of_retire {groupId : Bytes 32} {through : U64}
    (hretire : c.event.kind = .retireCodingGroup groupId through) :
    t.Protected sector ↔ s.ProtectedWithout groupId sector := by
  have hretires : ∀ id, c.event.kind.Retires id ↔ id = groupId := by
    intro id
    rw [hretire]
    constructor
    · rintro ⟨_, hsame⟩
      exact (GuildEventKind.retireCodingGroup.inj hsame).1.symm
    · rintro rfl
      exact ⟨_, rfl⟩
  rw [protected_iff hkind h]
  constructor
  · rintro ⟨other, hmem, hopen, hkept, hsector, hplaced⟩
    exact ⟨other, hmem, fun hid => hkept ((hretires _).mpr hid), hopen, hsector, hplaced⟩
  · rintro ⟨other, hmem, hne, hopen, hsector, hplaced⟩
    exact ⟨other, hmem, hopen, fun hkept => hne ((hretires _).mp hkept), hsector, hplaced⟩

end

/-- **Cleanup keeps protection exactly when the window of a group has passed, so that it is
forgotten, or the first redundant group is not the only group on current members of a live
sector.** -/
theorem lifecycle_keeps_protection_iff (C : Crypto) (s t : DynamicGuildState)
    (liveSectors : Finset (Bytes 32)) (c : QuorumGuildEvent)
    (hkind : s.variableGroupLifecycleKind liveSectors c.event.sequence = some c.event.kind)
    (h : s.applyEvent C c = .ok t) :
    (∀ sector ∈ liveSectors, s.Protected sector → t.Protected sector) ↔
      (∃ retained ∈ s.codingGroups, ∃ through ∈ retained.retainThroughEvent,
        through < c.event.sequence) ∨
      ∀ retained, s.FirstRedundant liveSectors retained → s.Placed retained.group →
        ∀ sector ∈ liveSectors, sector ∈ informationSectors retained.group →
          s.ProtectedWithout retained.group.id sector := by
  obtain ⟨hwf, -, -, -⟩ := applyEvent_eq_ok.mp h
  rcases variableGroupLifecycleKind_cases hkind with
    ⟨groupId, hready, hforget⟩ | ⟨hnone, candidate, hcandidate, hretire⟩
  · have hpast : ∃ retained ∈ s.codingGroups, ∃ through ∈ retained.retainThroughEvent,
        through < c.event.sequence := by
      by_contra hnot
      push Not at hnot
      rw [variableGroupReadyToForget_eq_none.mpr fun retained hmem through hthrough =>
        not_lt.mpr (hnot retained hmem through hthrough)] at hready
      cases hready
    exact iff_of_true (fun sector _ => protected_of_forget hkind h hforget) (.inl hpast)
  · have hfirst := (redundantGroup_eq_some_iff hwf).mp hcandidate
    have hopen := mem_unretired.mp hfirst.1.1
    rw [or_iff_right]
    swap
    · rintro ⟨retained, hmem, through, hthrough, hpast⟩
      exact variableGroupReadyToForget_eq_none.mp hnone retained hmem through hthrough hpast
    simp only [protected_iff_of_retire hkind h hretire]
    constructor
    · intro hkeeps retained hfirst' hplaced sector hlive hsector
      obtain rfl : candidate = retained := by
        rw [← redundantGroup_eq_some_iff hwf, hcandidate] at hfirst'
        exact Option.some.inj hfirst'
      exact hkeeps sector hlive ⟨candidate, hopen.1, hopen.2, hsector, hplaced⟩
    · rintro hspares sector hlive ⟨retained, hmem, hopen', hsector, hplaced⟩
      by_cases hid : retained.group.id = candidate.group.id
      · -- the group that protected the sector is retired
        obtain rfl := hwf.eq_of_unretired (mem_unretired.mpr ⟨hmem, hopen'⟩) hfirst.1.1 hid
        exact hspares retained hfirst hplaced sector hlive hsector
      · exact ⟨retained, hmem, hid, hopen', hsector, hplaced⟩

/-! ### Two groups for one sector

Two groups code the same sector, the older one on the members 1 and 2, the younger one on the
members 1 and 3.  While all three are in the guild, the older group can go. -/

/-- The sample group with its parity on the third member. -/
def youngerGroup : CodingGroupV2 :=
  let roles := sampleGroup.roles.map fun
    | .information role => .information role
    | .parity role => .parity { role with holder := ⟨3⟩, failureDomain := "attic" }
  { sampleGroup with
    id := (codingGroupV2Id .transparent 2 7 sampleGroup.profile roles).toOption.getD 0
    roles := roles }

/-- The state that a sequence of signed events leads to. -/
def stateAfter (events : List (GuildEventKind × List NodeId)) : DynamicGuildState :=
  ((applyEvents .transparent sampleState
    (sampleState.transparentCertificates events)).toOption).getD sampleState

/-- The state with both groups. -/
def bothState : DynamicGuildState :=
  stateAfter [(.addCodingGroup sampleGroup, [⟨1⟩, ⟨2⟩]), (.addCodingGroup youngerGroup, [⟨1⟩, ⟨2⟩])]

/-- The retirement of the older group. -/
def retireOlder (s : DynamicGuildState) (sequence : U64) : QuorumGuildEvent :=
  s.transparentCertificate (.retireCodingGroup sampleGroup.id sequence) [⟨1⟩, ⟨2⟩]

theorem lifecycle_keeps_protection_both :
    bothState.variableGroupLifecycleKind {6} (retireOlder bothState 3).event.sequence =
        some (retireOlder bothState 3).event.kind ∧
      bothState.Protected 6 ∧
      ∃ t, bothState.applyEvent .transparent (retireOlder bothState 3) = .ok t ∧
        t.Protected 6 := by
  have hkind : bothState.variableGroupLifecycleKind {6} (retireOlder bothState 3).event.sequence =
      some (retireOlder bothState 3).event.kind := by decide +kernel
  have hprotected : bothState.Protected 6 := by decide +kernel
  have hwithout : ∀ retained ∈ bothState.codingGroups,
      bothState.ProtectedWithout retained.group.id 6 := by decide +kernel
  obtain ⟨t, ht⟩ :
      Succeeds (bothState.applyEvent .transparent (retireOlder bothState 3)) := by
    decide +kernel
  refine ⟨hkind, hprotected, t, ht, ?_⟩
  refine (lifecycle_keeps_protection_iff _ _ _ _ _ hkind ht).mpr (.inr ?_) 6 (by decide) hprotected
  intro retained hfirst _ sector hlive _
  rw [Finset.mem_singleton.mp hlive]
  exact hwithout retained (mem_unretired.mp hfirst.1.1).1

/-! ### The wrong group goes

The same two groups, after member 3 has left. -/

/-- The state in which the younger group is stale. -/
def staleState : DynamicGuildState :=
  stateAfter [(.addCodingGroup sampleGroup, [⟨1⟩, ⟨2⟩]), (.addCodingGroup youngerGroup, [⟨1⟩, ⟨2⟩]),
    (.removeMember ⟨3⟩, [⟨1⟩, ⟨2⟩])]

theorem older_group_retired :
    staleState.variableGroupLifecycleKind {6} (retireOlder staleState 4).event.sequence =
        some (retireOlder staleState 4).event.kind ∧
      staleState.Protected 6 ∧
      ∃ t, staleState.applyEvent .transparent (retireOlder staleState 4) = .ok t ∧
        ¬ t.Protected 6 := by
  refine ⟨by decide +kernel, by decide +kernel, ?_⟩
  have hafter : (staleState.applyEvent .transparent (retireOlder staleState 4)).toOption.map
      (fun t => decide (t.Protected 6)) = some false := by decide +kernel
  cases h : staleState.applyEvent .transparent (retireOlder staleState 4) with
  | error e =>
    rw [h] at hafter
    cases hafter
  | ok t =>
    rw [h] at hafter
    exact ⟨t, rfl, of_decide_eq_false (Option.some.inj hafter)⟩

end DynamicGuildState

end MutualBackup

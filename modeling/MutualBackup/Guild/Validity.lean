import MutualBackup.Core.Guild

/-!
# What validation establishes

`DynamicGuildState.validate` is a sequence of loops and guards.  `WellFormed` says what it
accepts as one record of facts about the elements of the state, with the facts about one element
that do not depend on the others in `MemberSound` and `GroupSound`; `validate_eq_ok` is the
equivalence, and the only place where the loops are looked at.  Nothing above unfolds `validate`.

The facts that mention the position in the log are monotone in it (`MemberSound.mono`,
`GroupSound.mono`, `WriterSound.mono`, `RecoverySound.mono`): a part of the state that an event
leaves alone stays valid when the sequence number grows.

Validation computes one unchecked sum, in the numbering of the key epochs, and that sum never
overflows (`noOverflow_validate`).
-/

namespace MutualBackup

open Framework

/-! ## Quorum policies -/

lemma QuorumRule.half_lt_signatures {rule : QuorumRule} {active required : ℕ} (hpos : active ≠ 0)
    (h : rule.signatures active = .ok required) : active < 2 * required := by
  cases rule with
  | unanimous =>
    have := pure_eq_ok.mp h
    omega
  | majority =>
    have := pure_eq_ok.mp h
    omega
  | threshold value =>
    obtain ⟨_, hhalf, hvalue⟩ := bind_eq_ok.mp h
    have := reject_eq_ok.mp hhalf
    have := pure_eq_ok.mp hvalue
    omega

/-- The number of signatures a policy asks for is more than half, and no more than all. -/
lemma QuorumPolicy.required_bounds {p : QuorumPolicy} {active required : ℕ}
    (h : p.required active = .ok required) : active < 2 * required ∧ required ≤ active := by
  obtain ⟨_, hformat, h⟩ := bind_eq_ok.mp h
  obtain ⟨r, hrule, h⟩ := bind_eq_ok.mp h
  obtain ⟨_, hrange, h⟩ := bind_eq_ok.mp h
  obtain rfl : r = required := pure_eq_ok.mp h
  have hpos := reject_eq_ok.mp hformat
  have hle := reject_eq_ok.mp hrange
  push Not at hpos hle
  exact ⟨QuorumRule.half_lt_signatures hpos.2 hrule, hle.2⟩

lemma QuorumPolicy.noOverflow_required (p : QuorumPolicy) (active : ℕ) :
    NoOverflow (p.required active) := by
  refine noOverflow_reject_bind (noOverflow_bind ?_ fun _ _ => ?_)
  · cases p.rule with
    | unanimous => exact noOverflow_ok _
    | majority => exact noOverflow_ok _
    | threshold value => exact noOverflow_reject_bind (noOverflow_ok _)
  · exact noOverflow_reject_bind (noOverflow_ok _)

/-! ## Elements -/

/-- What validation asks of a member record at a place of the log. -/
structure MemberSound (C : Crypto) (now : U64) (m : DynamicMember) : Prop where
  nodeId_ne : m.member.nodeId ≠ ⟨0⟩
  domain_ne : m.member.failureDomain ≠ ""
  domain_size : m.member.failureDomain.utf8ByteSize ≤ 256
  contributory : m.member.recoveryPublicKey.isContributory C
  isPoint : C.isPoint m.member.nodeId.bytes
  not_weak : ¬ C.isWeak m.member.nodeId.bytes
  joined_le : m.joinedAtEvent ≤ now
  removed : ∀ removed ∈ m.removedAtEvent, m.joinedAtEvent < removed ∧ removed ≤ now

/-- What validation asks of a retained group at a place of the log. -/
structure GroupSound (C : Crypto) (guildId : Bytes 32) (now : U64) (g : RetainedCodingGroup) :
    Prop where
  valid : g.group.validate C = .ok ()
  guildId_eq : g.group.guildId = guildId
  added_ne : g.addedAtEvent ≠ 0
  added_le : g.addedAtEvent ≤ now
  window : g.retiredAtEvent.isSome = g.retainThroughEvent.isSome
  retired : ∀ event ∈ g.retiredAtEvent, g.addedAtEvent ≤ event ∧ event ≤ now
  retained : ∀ event ∈ g.retainThroughEvent, g.retiredAtEvent.getD 0 ≤ event

/-- What validation asks of the writer keys at a place of the log. -/
structure WriterSound (C : Crypto) (now : U64) (keys : List WriterKeyEpoch) : Prop where
  ascending : Ascending writerFields.order keys
  numbered : writerFields.NumberedFrom (fun _ => none) keys
  within : ∀ entry ∈ keys, writerFields.Within now entry
  isPoint : ∀ entry ∈ keys, C.isPoint entry.publicKey
  not_weak : ∀ entry ∈ keys, ¬ C.isWeak entry.publicKey

/-- What validation asks of the recovery keys at a place of the log. -/
structure RecoverySound (C : Crypto) (guildId : Bytes 32) (now : U64)
    (keys : List RecoveryKeyEpoch) : Prop where
  ascending : Ascending recoveryFields.order keys
  numbered : recoveryFields.NumberedFrom (fun _ => none) keys
  within : ∀ entry ∈ keys, recoveryFields.Within now entry
  envelope : ∀ entry ∈ keys, validateRecoveryEnvelope C entry.envelope guildId = .ok ()

section Mono

variable {C : Crypto} {guildId : Bytes 32} {now later : U64} (hle : now ≤ later)

include hle

lemma MemberSound.mono {m : DynamicMember} (h : MemberSound C now m) : MemberSound C later m :=
  { h with
    joined_le := h.joined_le.trans hle
    removed := fun r hr => ⟨(h.removed r hr).1, (h.removed r hr).2.trans hle⟩ }

lemma GroupSound.mono {g : RetainedCodingGroup} (h : GroupSound C guildId now g) :
    GroupSound C guildId later g :=
  { h with
    added_le := h.added_le.trans hle
    retired := fun r hr => ⟨(h.retired r hr).1, (h.retired r hr).2.trans hle⟩ }

lemma WriterSound.mono {keys : List WriterKeyEpoch} (h : WriterSound C now keys) :
    WriterSound C later keys :=
  { h with within := fun entry hmem => (h.within entry hmem).mono hle }

lemma RecoverySound.mono {keys : List RecoveryKeyEpoch} (h : RecoverySound C guildId now keys) :
    RecoverySound C guildId later keys :=
  { h with within := fun entry hmem => (h.within entry hmem).mono hle }

end Mono

/-- The element-wise check of a verifying key. -/
lemma verifyingKey_check_eq_ok {C : Crypto} {ε : Type} {bytes : Bytes 32} {e e' : ε} :
    (do let key ← okOr (C.verifyingKey bytes) e; reject (C.isWeak key) e' : Outcome ε Unit) =
        .ok () ↔ C.isPoint bytes ∧ ¬ C.isWeak bytes := by
  simp only [bind_eq_ok, okOr_eq_ok, reject_eq_ok, Crypto.verifyingKey_eq_some]
  constructor
  · rintro ⟨_, ⟨hpoint, rfl⟩, hweak⟩
    exact ⟨hpoint, hweak⟩
  · rintro ⟨hpoint, hweak⟩
    exact ⟨_, ⟨hpoint, rfl⟩, hweak⟩

namespace DynamicGuildState

variable {C : Crypto} {s : DynamicGuildState}

/-! ## States -/

variable (C s)

/-- **The states that validate.** -/
structure WellFormed : Prop where
  format : s.formatVersion = 1
  guildId_ne : s.guildId ≠ 0
  eventHead_ne : s.eventHead ≠ 0
  membershipEpoch_ne : s.membershipEpoch ≠ 0
  members_ne : s.members ≠ []
  members_length : s.members.length ≤ maxDynamicMembers
  members_ascending : Ascending (fun m => m.member.nodeId) s.members
  members_sound : ∀ m ∈ s.members, MemberSound C s.eventSequence m
  quorum : Succeeds (s.quorum.required s.activeMembers.length)
  writers : WriterSound C s.eventSequence s.writerKeys
  recoveries : RecoverySound C s.guildId s.eventSequence s.recoveryKeys
  groups_ascending : Ascending (fun g => g.group.id) s.codingGroups
  groups_sound : ∀ g ∈ s.codingGroups, GroupSound C s.guildId s.eventSequence g

variable {C s}

lemma checkMember_eq_ok (previous : Option NodeId) (m : DynamicMember) :
    s.checkMember C previous m = .ok () ↔
      (∀ p ∈ previous, p < m.member.nodeId) ∧ MemberSound C s.eventSequence m := by
  have hsplit : s.checkMember C previous m = .ok () ↔ ¬ ((∃ p ∈ previous, m.member.nodeId ≤ p) ∨
      m.member.nodeId = ⟨0⟩ ∨ m.member.failureDomain = "" ∨
      256 < m.member.failureDomain.utf8ByteSize ∨
      ¬ m.member.recoveryPublicKey.isContributory C ∨ s.eventSequence < m.joinedAtEvent ∨
      ∃ r ∈ m.removedAtEvent, r ≤ m.joinedAtEvent ∨ s.eventSequence < r) ∧
      C.isPoint m.member.nodeId.bytes ∧ ¬ C.isWeak m.member.nodeId.bytes := by
    rw [checkMember, bind_eq_ok]
    simp only [reject_eq_ok, verifyingKey_check_eq_ok, exists_unit]
    simp only [isSomeAnd]
  rw [hsplit]
  push Not
  constructor
  · rintro ⟨⟨hprev, hid, hdom, hsize, hcontrib, hjoined, hremoved⟩, hpoint, hweak⟩
    exact ⟨hprev, hid, hdom, hsize, hcontrib, hpoint, by simpa using hweak, hjoined, hremoved⟩
  · rintro ⟨hprev, hm⟩
    exact ⟨⟨hprev, hm.nodeId_ne, hm.domain_ne, hm.domain_size, hm.contributory, hm.joined_le,
      hm.removed⟩, hm.isPoint, by simpa using hm.not_weak⟩

lemma checkGroup_eq_ok (previous : Option (Bytes 32)) (g : RetainedCodingGroup) :
    s.checkGroup C previous g = .ok () ↔
      (∀ p ∈ previous, p < g.group.id) ∧ GroupSound C s.guildId s.eventSequence g := by
  rw [checkGroup, bind_eq_ok]
  simp only [mapErr_eq_ok, reject_eq_ok, exists_unit]
  simp only [isSomeAnd]
  push Not
  constructor
  · rintro ⟨hvalid, hguild, hprev, hadded, hle, hwindow, hretired, hretained⟩
    exact ⟨hprev, hvalid, hguild, hadded, hle, hwindow, hretired, hretained⟩
  · rintro ⟨hprev, hg⟩
    exact ⟨hg.valid, hg.guildId_eq, hprev, hg.added_ne, hg.added_le, hg.window, hg.retired,
      hg.retained⟩

lemma validateWriterKeys_eq_ok :
    s.validateWriterKeys C = .ok () ↔ WriterSound C s.eventSequence s.writerKeys := by
  rw [validateWriterKeys, EpochFields.validateFrom_eq_ok]
  have hcheck : ∀ entry : WriterKeyEpoch,
      ((do let _ ← okOr (C.verifyingKey entry.publicKey) GuildStateError.signature) :
        Outcome GuildStateError Unit) = .ok () ↔ C.isPoint entry.publicKey := by
    intro entry
    simp [Crypto.verifyingKey_eq_some]
  simp only [hcheck]
  constructor
  · rintro ⟨-, hasc, hnum, hgood⟩
    exact ⟨hasc, hnum, fun x hx => (hgood x hx).2.1, fun x hx => (hgood x hx).1,
      fun x hx => (hgood x hx).2.2⟩
  · intro h
    exact ⟨by simp, h.ascending, h.numbered, fun x hx =>
      ⟨h.isPoint x hx, h.within x hx, h.not_weak x hx⟩⟩

lemma validateRecoveryKeys_eq_ok :
    s.validateRecoveryKeys C = .ok () ↔
      RecoverySound C s.guildId s.eventSequence s.recoveryKeys := by
  rw [validateRecoveryKeys, EpochFields.validateFrom_eq_ok]
  constructor
  · rintro ⟨-, hasc, hnum, hgood⟩
    exact ⟨hasc, hnum, fun x hx => (hgood x hx).2.1, fun x hx => (hgood x hx).1⟩
  · intro h
    exact ⟨by simp, h.ascending, h.numbered, fun x hx =>
      ⟨h.envelope x hx, h.within x hx, not_false⟩⟩

/-- **Validation, element by element.** -/
lemma validate_eq_ok : s.validate C = .ok () ↔ s.WellFormed C := by
  have hsplit : s.validate C = .ok () ↔
      ¬ (s.formatVersion ≠ 1 ∨ s.guildId = 0 ∨ s.eventHead = 0 ∨ s.membershipEpoch = 0 ∨
        s.members = [] ∨ maxDynamicMembers < s.members.length) ∧
      scanFrom (fun m => m.member.nodeId) (s.checkMember C) none s.members = .ok () ∧
      Succeeds (s.quorum.required s.activeMembers.length) ∧ s.validateWriterKeys C = .ok () ∧
      s.validateRecoveryKeys C = .ok () ∧
      scanFrom (fun g => g.group.id) (s.checkGroup C) none s.codingGroups = .ok () := by
    rw [validate]
    simp only [bind_eq_ok, reject_eq_ok, exists_unit, Succeeds]
    constructor
    · rintro ⟨h0, h1, q, hq, h2, h3, h4⟩
      exact ⟨h0, h1, ⟨q, hq⟩, h2, h3, h4⟩
    · rintro ⟨h0, h1, ⟨q, hq⟩, h2, h3, h4⟩
      exact ⟨h0, h1, q, hq, h2, h3, h4⟩
  rw [hsplit, scanFrom_none_eq_ok checkMember_eq_ok, scanFrom_none_eq_ok checkGroup_eq_ok,
    validateWriterKeys_eq_ok, validateRecoveryKeys_eq_ok]
  push Not
  constructor
  · rintro ⟨⟨hf, hg, hh, he, hne, hlen⟩, ⟨hasc, hms⟩, hq, hw, hr, hgasc, hgs⟩
    exact ⟨hf, hg, hh, he, hne, hlen, hasc, hms, hq, hw, hr, hgasc, hgs⟩
  · intro h
    exact ⟨⟨h.format, h.guildId_ne, h.eventHead_ne, h.membershipEpoch_ne, h.members_ne,
      h.members_length⟩, ⟨h.members_ascending, h.members_sound⟩, h.quorum, h.writers,
      h.recoveries, h.groups_ascending, h.groups_sound⟩

/-! ## No overflow -/

lemma noOverflow_verifyingKey_check {ε : Type} (bytes : Bytes 32) (e e' : ε) :
    NoOverflow
      (do let key ← okOr (C.verifyingKey bytes) e; reject (C.isWeak key) e' : Outcome ε Unit) :=
  noOverflow_bind (noOverflow_okOr _ _) fun _ _ => noOverflow_reject _ _

variable (C s)

/-- Validation neither panics nor wraps, whatever the state. -/
lemma noOverflow_validate : NoOverflow (s.validate C) := by
  refine noOverflow_reject_bind ?_
  refine noOverflow_bind (noOverflow_scanFrom (fun _ _ => ?_) _ _) fun _ _ => ?_
  · exact noOverflow_reject_bind (noOverflow_verifyingKey_check _ _ _)
  refine noOverflow_bind (QuorumPolicy.noOverflow_required _ _) fun _ _ => ?_
  refine noOverflow_bind ?_ fun _ _ => noOverflow_bind ?_ fun _ _ => ?_
  · refine EpochFields.noOverflow_validateFrom (fun _ => ?_) (fun _ _ h => by cases h) _
    exact noOverflow_bind (noOverflow_okOr _ _) fun _ _ => noOverflow_ok _
  · exact EpochFields.noOverflow_validateFrom (fun _ => noOverflow_reject _ _)
      (fun _ _ h => by cases h) _
  · refine noOverflow_scanFrom (fun _ g => ?_) _ _
    exact noOverflow_bind (noOverflow_mapErr (g.group.noOverflow_validate C))
      fun _ _ => noOverflow_reject _ _

variable {C s}

/-! ## Active members -/

lemma mem_activeMembers {m : Member} :
    m ∈ s.activeMembers ↔ ∃ d ∈ s.members, d.isActive ∧ d.member = m := by
  simp only [activeMembers, List.mem_map, List.mem_filter, decide_eq_true_eq, and_assoc]

lemma mem_activeIds {n : NodeId} :
    n ∈ s.activeIds ↔ ∃ d ∈ s.members, d.isActive ∧ d.member.nodeId = n := by
  simp only [activeIds, List.mem_toFinset, List.mem_map, mem_activeMembers]
  constructor
  · rintro ⟨_, ⟨d, hd, hact, rfl⟩, rfl⟩
    exact ⟨d, hd, hact, rfl⟩
  · rintro ⟨d, hd, hact, rfl⟩
    exact ⟨_, ⟨d, hd, hact, rfl⟩, rfl⟩

lemma WellFormed.activeMembers_ascending (h : s.WellFormed C) :
    Ascending Member.nodeId s.activeMembers := by
  rw [activeMembers, ascending_iff_map, List.map_map]
  exact ascending_iff_map.mp (List.Pairwise.sublist List.filter_sublist h.members_ascending)

/-- Identities are unique, so the set of active members has as many elements as the list. -/
lemma WellFormed.card_activeIds (h : s.WellFormed C) :
    s.activeIds.card = s.activeMembers.length :=
  h.activeMembers_ascending.card_toFinset_map

lemma requireActiveMember_eq_ok {n : NodeId} {m : DynamicMember}
    (h : Ascending (fun m => m.member.nodeId) s.members) :
    s.requireActiveMember n = .ok m ↔ m ∈ s.members ∧ m.member.nodeId = n ∧ m.isActive := by
  rw [requireActiveMember, okOr_eq_ok, find?_eq_some_of_unique]
  · simp only [decide_eq_true_eq]
  · intro x hx y hy hpx hpy
    rw [decide_eq_true_eq] at hpx hpy
    exact h.eq_of_key hx hy (hpx.1.trans hpy.1.symm)

lemma exists_requireActiveMember {n : NodeId} (h : Ascending (fun m => m.member.nodeId) s.members) :
    (∃ m, s.requireActiveMember n = .ok m) ↔ n ∈ s.activeIds := by
  simp only [requireActiveMember_eq_ok h, mem_activeIds]
  constructor
  · rintro ⟨m, hm, hn, hact⟩
    exact ⟨m, hm, hact, hn⟩
  · rintro ⟨m, hm, hact, hn⟩
    exact ⟨m, hm, hn, hact⟩

end DynamicGuildState

end MutualBackup

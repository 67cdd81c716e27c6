import MutualBackup.Core.Authority
import MutualBackup.Guild.Agreement

/-!
# The snapshot simulates the state

A `GuildAuthoritySnapshot` replays a guild's events without the key and group histories.  Membership
events run the rules of the full state on a state whose histories are erased, and every other event
is answered by a callback.  This module proves that nothing is lost: with a callback that answers as
the full transition would, the snapshot accepts an event exactly when the full state does, and then
is the snapshot of the new state.

The two facts behind it are that a membership effect neither reads nor writes the histories
(`effect_erase_iff`), and that validation of the roster and of the histories are independent, so a
state is well formed when its erasure is and the histories come from an earlier well formed state
(`WellFormed.of_erase`).
-/

namespace MutualBackup

open Framework

namespace DynamicGuildState

variable {C : Crypto} {s t : DynamicGuildState}

/-! ## Erasure -/

/-- The state without its histories. -/
def erase (s : DynamicGuildState) : DynamicGuildState :=
  { s with writerKeys := [], recoveryKeys := [], codingGroups := [] }

/-- The histories are the same. -/
structure SameHistories (s t : DynamicGuildState) : Prop where
  writerKeys_eq : t.writerKeys = s.writerKeys
  recoveryKeys_eq : t.recoveryKeys = s.recoveryKeys
  codingGroups_eq : t.codingGroups = s.codingGroups

lemma WellFormed.erase (h : s.WellFormed C) : s.erase.WellFormed C :=
  { format := h.format
    guildId_ne := h.guildId_ne
    eventHead_ne := h.eventHead_ne
    membershipEpoch_ne := h.membershipEpoch_ne
    members_ne := h.members_ne
    members_length := h.members_length
    members_ascending := h.members_ascending
    members_sound := h.members_sound
    quorum := h.quorum
    writers := ⟨.nil, trivial, by simp [DynamicGuildState.erase], by simp [DynamicGuildState.erase],
      by simp [DynamicGuildState.erase]⟩
    recoveries := ⟨.nil, trivial, by simp [DynamicGuildState.erase],
      by simp [DynamicGuildState.erase]⟩
    groups_ascending := .nil
    groups_sound := by simp [DynamicGuildState.erase] }

/-- The histories of an earlier well formed state stay valid. -/
lemma WellFormed.of_erase (ht : t.erase.WellFormed C) (hs : s.WellFormed C)
    (hsame : SameHistories s t) (hguild : t.guildId = s.guildId)
    (hle : s.eventSequence ≤ t.eventSequence) : t.WellFormed C :=
  { format := ht.format
    guildId_ne := ht.guildId_ne
    eventHead_ne := ht.eventHead_ne
    membershipEpoch_ne := ht.membershipEpoch_ne
    members_ne := ht.members_ne
    members_length := ht.members_length
    members_ascending := ht.members_ascending
    members_sound := ht.members_sound
    quorum := ht.quorum
    writers := by
      rw [hsame.writerKeys_eq]
      exact hs.writers.mono hle
    recoveries := by
      rw [hsame.recoveryKeys_eq, hguild]
      exact hs.recoveries.mono hle
    groups_ascending := by
      rw [hsame.codingGroups_eq]
      exact hs.groups_ascending
    groups_sound := by
      rw [hsame.codingGroups_eq, hguild]
      exact fun g hg => (hs.groups_sound g hg).mono hle }

variable {kind : GuildEventKind} {sequence : U64}

/-- A membership effect does not touch the histories. -/
lemma Effect.sameHistories (h : s.Effect C sequence kind t) (hkind : kind.isMembership) :
    SameHistories s t := by
  cases h with
  | addMember | removeMember | relabelMember | setQuorum => exact ⟨rfl, rfl, rfl⟩
  | _ => cases hkind

/-- **A membership effect does not see the histories.** -/
lemma effect_erase_iff (hkind : kind.isMembership) {u : DynamicGuildState} :
    s.erase.Effect C sequence kind u ↔ ∃ t, s.Effect C sequence kind t ∧ u = t.erase := by
  constructor
  · intro h
    cases h with
    | addMember hvalid hnew hepoch => exact ⟨_, .addMember hvalid hnew hepoch, rfl⟩
    | removeMember hactive hepoch hquorum => exact ⟨_, .removeMember hactive hepoch hquorum, rfl⟩
    | relabelMember hdomain hactive hepoch => exact ⟨_, .relabelMember hdomain hactive hepoch, rfl⟩
    | setQuorum hquorum hepoch => exact ⟨_, .setQuorum hquorum hepoch, rfl⟩
    | _ => cases hkind
  · rintro ⟨t, h, rfl⟩
    cases h with
    | addMember hvalid hnew hepoch => exact .addMember hvalid hnew hepoch
    | removeMember hactive hepoch hquorum => exact .removeMember hactive hepoch hquorum
    | relabelMember hdomain hactive hepoch => exact .relabelMember hdomain hactive hepoch
    | setQuorum hquorum hepoch => exact .setQuorum hquorum hepoch
    | _ => cases hkind

/-- The other effects leave the roster alone. -/
lemma Effect.erase_eq (h : s.Effect C sequence kind t) (hkind : kind.isMembership = false) :
    t.erase = s.erase := by
  cases h with
  | addMember | removeMember | relabelMember | setQuorum => cases hkind
  | _ => rfl

/-- A membership effect counts the membership epoch up. -/
lemma Effect.membershipEpoch_succ (h : s.Effect C sequence kind t) (hkind : kind.isMembership) :
    ∃ epoch, s.membershipEpoch.checkedSucc = some epoch := by
  cases h with
  | addMember _ _ hepoch => exact ⟨_, U64.checkedSucc_eq_some.mpr hepoch⟩
  | removeMember _ hepoch _ => exact ⟨_, U64.checkedSucc_eq_some.mpr hepoch⟩
  | relabelMember _ _ hepoch => exact ⟨_, U64.checkedSucc_eq_some.mpr hepoch⟩
  | setQuorum _ hepoch => exact ⟨_, U64.checkedSucc_eq_some.mpr hepoch⟩
  | _ => cases hkind

lemma InPlace.le_sequence {event : GuildEvent} (h : s.InPlace event) :
    s.eventSequence ≤ event.sequence := by
  have hnext := h.sequence_eq
  exact Fin.le_def.mpr (by omega)

/-- A membership event advances the erased state exactly when it advances the state. -/
lemma advances_erase_iff (hwf : s.WellFormed C) {event : GuildEvent} (hplace : s.InPlace event)
    (hkind : event.kind.isMembership) {u : DynamicGuildState} :
    s.erase.Advances C event u ↔ ∃ t, s.Advances C event t ∧ u = t.erase := by
  constructor
  · rintro ⟨changed, head, heffect, hhash, rfl, hwf'⟩
    obtain ⟨t, ht, rfl⟩ := (effect_erase_iff hkind).mp heffect
    have hsame := ht.sameHistories hkind
    refine ⟨t.atEvent event head, ⟨t, head, ht, hhash, rfl, ?_⟩, rfl⟩
    have hsame' : SameHistories s (t.atEvent event head) :=
      ⟨hsame.writerKeys_eq, hsame.recoveryKeys_eq, hsame.codingGroups_eq⟩
    exact WellFormed.of_erase hwf' hwf hsame' ht.header.2.1 hplace.le_sequence
  · rintro ⟨_, ⟨changed, head, heffect, hhash, rfl, hwf'⟩, rfl⟩
    exact ⟨changed.erase, head, (effect_erase_iff hkind).mpr ⟨changed, heffect, rfl⟩, hhash, rfl,
      hwf'.erase⟩

end DynamicGuildState

/-! ## The snapshot of a state -/

namespace GuildAuthoritySnapshot

variable {C : Crypto} {s t : DynamicGuildState}

lemma checkMembers_eq_ok {members : List DynamicMember} :
    checkMembers members = .ok () ↔ members ≠ [] ∧ members.length ≤ maxDynamicMembers ∧
      ∀ entry ∈ members, entry.member.failureDomain.utf8ByteSize ≤ 256 := by
  rw [checkMembers, reject_eq_ok]
  push Not
  rfl

/-- A well formed roster is within the bounds of the snapshot. -/
lemma checkMembers_of_wellFormed (hwf : s.WellFormed C) : checkMembers s.members = .ok () :=
  checkMembers_eq_ok.mpr ⟨hwf.members_ne, hwf.members_length,
    fun m hm => (hwf.members_sound m hm).domain_size⟩

lemma state_snapshot (h : checkMembers s.members = .ok ()) : s.snapshot.state = .ok s.erase :=
  bind_eq_ok.mpr ⟨(), h, rfl⟩

variable {a : GuildAuthoritySnapshot}

lemma fromState_eq_ok : fromState C s = .ok a ↔ s.erase.WellFormed C ∧ a = s.snapshot := by
  rw [fromState]
  simp only [bind_eq_ok, exists_unit, pure_eq_ok]
  constructor
  · rintro ⟨hcheck, hvalid, rfl⟩
    obtain ⟨state, hstate, hwf⟩ := bind_eq_ok.mp hvalid
    rw [state_snapshot hcheck] at hstate
    obtain rfl := Except.ok.inj hstate
    exact ⟨DynamicGuildState.validate_eq_ok.mp hwf, rfl⟩
  · rintro ⟨hwf, rfl⟩
    have hcheck : checkMembers s.erase.members = .ok () := checkMembers_of_wellFormed hwf
    exact ⟨hcheck, bind_eq_ok.mpr ⟨_, state_snapshot hcheck,
      DynamicGuildState.validate_eq_ok.mpr hwf⟩, rfl⟩

/-- The event is within the limit of the snapshot's reader. -/
def Fits (certified : QuorumGuildEvent) : Prop :=
  Succeeds (canonicalSizeBounded QuorumGuildEvent.codec certified guildEventBytes)
  deriving Decidable

variable {certified : QuorumGuildEvent}

lemma verifyEvent_eq_ok (hwf : s.WellFormed C) (hfits : Fits certified) :
    s.snapshot.verifyEvent C certified = .ok () ↔
      s.InPlace certified.event ∧ s.Certified C certified := by
  obtain ⟨n, hn⟩ := hfits
  have hstate := state_snapshot (checkMembers_of_wellFormed hwf)
  rw [verifyEvent]
  simp only [bind_eq_ok, mapErr_eq_ok]
  constructor
  · rintro ⟨_, -, state, hs, hverify⟩
    obtain rfl := Except.ok.inj (hstate.symm.trans hs)
    obtain ⟨-, hplace, hcert⟩ := DynamicGuildState.verifyEvent_eq_ok.mp hverify
    exact ⟨⟨hplace.format, hplace.guildId_eq, hplace.sequence_eq, hplace.parent_eq⟩,
      ⟨hcert.ascending, hcert.signers, hcert.quorum, hcert.subject⟩⟩
  · rintro ⟨hplace, hcert⟩
    refine ⟨n, hn, s.erase, hstate, DynamicGuildState.verifyEvent_eq_ok.mpr ⟨hwf.erase, ?_, ?_⟩⟩
    · exact ⟨hplace.format, hplace.guildId_eq, hplace.sequence_eq, hplace.parent_eq⟩
    · exact ⟨hcert.ascending, hcert.signers, hcert.quorum, hcert.subject⟩

/-! ## One event -/

section Callback

variable {ε : Type} {convert : GuildStateError → ε}
  {validateNonMembership : GuildAuthoritySnapshot → GuildEvent → Outcome ε Unit}

/-- The callback answers an event that is not about membership as the full transition of the state
does. -/
def CallbackAgrees (C : Crypto) (s : DynamicGuildState) (certified : QuorumGuildEvent)
    (validateNonMembership : GuildAuthoritySnapshot → GuildEvent → Outcome ε Unit) : Prop :=
  certified.event.kind.isMembership = false →
    (validateNonMembership s.snapshot certified.event = .ok () ↔
      Succeeds (s.applyVerifiedEvent C certified))

variable (hwf : s.WellFormed C) (hcb : CallbackAgrees C s certified validateNonMembership)

include hwf hcb

/-- The snapshot moves on exactly when the state advances, and to the snapshot of the new state. -/
lemma nextVerifiedIndexed_eq_ok (hplace : s.InPlace certified.event) :
    s.snapshot.nextVerifiedIndexed C convert validateNonMembership certified = .ok a ↔
      ∃ t, s.Advances C certified.event t ∧ a = t.snapshot := by
  have hstate := state_snapshot (checkMembers_of_wellFormed hwf)
  have hnext : s.snapshot.nextVerifiedIndexed C convert validateNonMembership certified = .ok a ↔
      ∃ next, s.snapshot.applyIndexed C convert validateNonMembership certified = .ok next ∧
        next.erase.WellFormed C ∧ a = next.snapshot := by
    rw [nextVerifiedIndexed]
    simp only [bind_eq_ok, mapErr_eq_ok, fromState_eq_ok]
  rw [hnext, applyIndexed, hstate]
  cases hkind : certified.event.kind.isMembership with
  | true =>
    simp only [mapErr_ok, ok_bind, if_true, bind_eq_ok, okOr_eq_ok, mapErr_eq_ok,
      DynamicGuildState.applyVerifiedEvent_eq_ok,
      DynamicGuildState.advances_erase_iff hwf hplace hkind]
    constructor
    · rintro ⟨_, ⟨epoch, -, t, ht, rfl⟩, -, rfl⟩
      exact ⟨t, ht, rfl⟩
    · rintro ⟨t, ht, rfl⟩
      obtain ⟨changed, head, heffect, -, -, hwf'⟩ := id ht
      obtain ⟨epoch, hepoch⟩ := heffect.membershipEpoch_succ hkind
      exact ⟨t.erase, ⟨epoch, hepoch, t, ht, rfl⟩, hwf'.erase, rfl⟩
  | false =>
    have hcallback : validateNonMembership s.snapshot certified.event = .ok () ↔
        ∃ t, s.Advances C certified.event t := by
      rw [hcb hkind]
      simp only [Succeeds, DynamicGuildState.applyVerifiedEvent_eq_ok]
    simp only [mapErr_ok, ok_bind, Bool.false_eq_true, if_false, bind_eq_ok, exists_unit,
      mapErr_eq_ok, pure_eq_ok, hcallback]
    constructor
    · rintro ⟨_, ⟨⟨t, ht⟩, head, hhash, rfl⟩, -, rfl⟩
      refine ⟨t, ht, ?_⟩
      obtain ⟨changed, head', heffect, hhash', rfl, -⟩ := ht
      obtain rfl := Except.ok.inj (hhash.symm.trans hhash')
      have herase := heffect.erase_eq hkind
      exact congrArg (fun u => (u.atEvent certified.event head).snapshot) herase.symm
    · rintro ⟨t, ht, rfl⟩
      obtain ⟨changed, head, heffect, hhash, rfl, hwf'⟩ := id ht
      have herase := heffect.erase_eq hkind
      refine ⟨s.erase.atEvent certified.event head, ⟨⟨_, ht⟩, head, hhash, rfl⟩, ?_, ?_⟩
      · have hsame : (changed.atEvent certified.event head).erase =
            s.erase.atEvent certified.event head := by
          rw [← herase]
          rfl
        rw [← hsame]
        exact hwf'.erase.erase
      · exact congrArg (fun u => (u.atEvent certified.event head).snapshot) herase

variable (convert)

/-- **One event.** -/
lemma advanceIndexed_eq_ok (hfits : Fits certified) :
    s.snapshot.advanceIndexed C convert validateNonMembership certified = (a, .ok ()) ↔
      ∃ t, s.applyEvent C certified = .ok t ∧ a = t.snapshot := by
  rw [advanceIndexed, assign_ok_iff]
  simp only [bind_eq_ok, exists_unit, mapErr_eq_ok, verifyEvent_eq_ok hwf hfits,
    DynamicGuildState.applyEvent_eq_ok]
  constructor
  · rintro ⟨⟨hplace, hcert⟩, hnext⟩
    obtain ⟨t, ht, rfl⟩ := (nextVerifiedIndexed_eq_ok hwf hcb hplace).mp hnext
    exact ⟨t, ⟨hwf, hplace, hcert, ht⟩, rfl⟩
  · rintro ⟨t, ⟨-, hplace, hcert, ht⟩, rfl⟩
    exact ⟨⟨hplace, hcert⟩, (nextVerifiedIndexed_eq_ok hwf hcb hplace).mpr ⟨t, ht, rfl⟩⟩

end Callback

/-! ## Whole replays -/

section Replay

variable {ε : Type} (C : Crypto) (convert : GuildStateError → ε)

/-- An event and the callback it is passed with. -/
abbrev Step (ε : Type) : Type :=
  QuorumGuildEvent × (GuildAuthoritySnapshot → GuildEvent → Outcome ε Unit)

/-- The snapshot after an event that is accepted. -/
def advanceStep (a : GuildAuthoritySnapshot) (step : Step ε) : Outcome ε GuildAuthoritySnapshot :=
  settled (a.advanceIndexed C convert step.2 step.1)

/-- The replay of a list of events on a snapshot. -/
def advanceAll (a : GuildAuthoritySnapshot) (steps : List (Step ε)) :
    Outcome ε GuildAuthoritySnapshot :=
  replay (advanceStep C convert) a steps

/-- The snapshot `a` of the state `s` answers an event as the state does. -/
structure AnswersEvent (s : DynamicGuildState) (a : GuildAuthoritySnapshot) (step : Step ε) :
    Prop where
  succeeds_iff : (a.advanceIndexed C convert step.2 step.1).2 = .ok () ↔
    Succeeds (s.applyEvent C step.1)
  next : ∀ t, s.applyEvent C step.1 = .ok t →
    fromState C t = .ok (a.advanceIndexed C convert step.2 step.1).1
  unchanged : (a.advanceIndexed C convert step.2 step.1).2 ≠ .ok () →
    (a.advanceIndexed C convert step.2 step.1).1 = a

/-- The two replays accept the list or refuse it together, and end in the same roster, quorum,
epoch, sequence and head. -/
structure AnswersReplay (s : DynamicGuildState) (a : GuildAuthoritySnapshot)
    (steps : List (Step ε)) : Prop where
  succeeds_iff : Succeeds (advanceAll C convert a steps) ↔
    Succeeds (DynamicGuildState.applyEvents C s (steps.map Prod.fst))
  same : ∀ b t, advanceAll C convert a steps = .ok b →
    DynamicGuildState.applyEvents C s (steps.map Prod.fst) = .ok t → b = t.snapshot

variable {C convert}

lemma answersEvent (hwf : s.WellFormed C) {step : Step ε} (hfits : Fits step.1)
    (hcb : CallbackAgrees C s step.1 step.2) : AnswersEvent C convert s s.snapshot step := by
  have hok : ∀ {a}, s.snapshot.advanceIndexed C convert step.2 step.1 = (a, .ok ()) ↔
      ∃ t, s.applyEvent C step.1 = .ok t ∧ a = t.snapshot :=
    advanceIndexed_eq_ok convert hwf hcb hfits
  refine ⟨?_, fun t ht => ?_, fun hfail => ?_⟩
  · constructor
    · intro h
      obtain ⟨t, ht, -⟩ := hok.mp (Prod.ext rfl h)
      exact ⟨t, ht⟩
    · rintro ⟨t, ht⟩
      rw [hok.mpr ⟨t, ht, rfl⟩]
  · have hwf' := (DynamicGuildState.applyEvent_eq_ok.mp ht).2.2.2.wellFormed
    rw [hok.mpr ⟨t, ht, rfl⟩]
    exact fromState_eq_ok.mpr ⟨hwf'.erase, rfl⟩
  · cases hresult : (s.snapshot.advanceIndexed C convert step.2 step.1).2 with
    | ok u => exact absurd hresult hfail
    | error e => exact assign_error hresult

/-- The condition on the steps of a replay: they fit the reader, and their callbacks answer as the
full transition does in the state they are called in. -/
def CallbacksAgree (C : Crypto) (s : DynamicGuildState) (steps : List (Step ε)) : Prop :=
  EveryStep (fun s step => s.applyEvent C step.1) s steps fun s step =>
    Fits step.1 ∧ CallbackAgrees C s step.1 step.2

lemma answersReplay (hwf : s.WellFormed C) {steps : List (Step ε)}
    (hsteps : CallbacksAgree C s steps) : AnswersReplay C convert s s.snapshot steps := by
  have hsim : ∀ {b}, advanceAll C convert s.snapshot steps = .ok b ↔
      ∃ t, DynamicGuildState.applyEvents C s (steps.map Prod.fst) = .ok t ∧ b = t.snapshot := by
    intro b
    rw [DynamicGuildState.applyEvents, ← replay_map]
    refine replay_simulation (P := fun s : DynamicGuildState => s.WellFormed C)
      (fun s step t _ ht => (DynamicGuildState.applyEvent_eq_ok.mp ht).2.2.2.wellFormed)
      (fun s step b hs hstep => ?_) hwf hsteps
    rw [advanceStep, settled_eq_ok, advanceIndexed_eq_ok convert hs hstep.2 hstep.1]
  refine ⟨?_, fun b t hb ht => ?_⟩
  · constructor
    · rintro ⟨b, hb⟩
      obtain ⟨t, ht, -⟩ := hsim.mp hb
      exact ⟨t, ht⟩
    · rintro ⟨t, ht⟩
      exact ⟨_, hsim.mpr ⟨t, ht, rfl⟩⟩
  · obtain ⟨t', ht', rfl⟩ := hsim.mp hb
    obtain rfl := Except.ok.inj (ht.symm.trans ht')
    rfl

/-- **The snapshot simulates the state.** The snapshot of a valid state answers every event that
fits its reader as the state does, and so does its replay of every initial part of a list of events;
a refused event leaves it as it was. -/
theorem authority_replay_simulates (C : Crypto) (convert : GuildStateError → ε)
    (s : DynamicGuildState) (hvalid : s.validate C = .ok ()) :
    ∃ a, fromState C s = .ok a ∧ (∀ step : Step ε, Fits step.1 → CallbackAgrees C s step.1 step.2 →
        AnswersEvent C convert s a step) ∧
      ∀ steps : List (Step ε), CallbacksAgree C s steps →
        ∀ before after, steps = before ++ after → AnswersReplay C convert s a before := by
  have hwf := DynamicGuildState.validate_eq_ok.mp hvalid
  refine ⟨s.snapshot, fromState_eq_ok.mpr ⟨hwf.erase, rfl⟩, fun step hfits hcb => ?_,
    fun steps hsteps before after hsplit => ?_⟩
  · exact answersEvent hwf hfits hcb
  · rw [hsplit] at hsteps
    exact answersReplay hwf (EveryStep.of_append hsteps)

/-! ### A caller with the full state

A caller that keeps the full state can answer every callback from it. -/

/-- The callback of a caller that holds the state. -/
def stateCallback (C : Crypto) (convert : GuildStateError → ε) (s : DynamicGuildState) :
    GuildAuthoritySnapshot → GuildEvent → Outcome ε Unit := fun _ event => do
  let _ ← mapErr convert (s.applyVerifiedEvent C { event := event, signatures := [] })

lemma stateCallback_agrees (s : DynamicGuildState) (certified : QuorumGuildEvent) :
    CallbackAgrees C s certified (stateCallback C convert s) := by
  intro _
  simp only [stateCallback, Succeeds, bind_eq_ok, mapErr_eq_ok,
    DynamicGuildState.applyVerifiedEvent_eq_ok]
  constructor
  · rintro ⟨t, ht, -⟩
    exact ⟨t, ht⟩
  · rintro ⟨t, ht⟩
    exact ⟨t, ht, rfl⟩

/-- Every event with the callback of the state it is applied in. -/
def withCallbacks (C : Crypto) (convert : GuildStateError → ε) :
    DynamicGuildState → List QuorumGuildEvent → List (Step ε)
  | _, [] => []
  | s, certified :: events =>
    (certified, stateCallback C convert s) ::
      match s.applyEvent C certified with
      | .ok t => withCallbacks C convert t events
      | .error _ => []

lemma withCallbacks_agree {events : List QuorumGuildEvent}
    (hfits : ∀ certified ∈ events, Fits certified) :
    CallbacksAgree C s (withCallbacks C convert s events) := by
  induction events generalizing s with
  | nil =>
    intro before step after u hsplit
    cases before <;> cases hsplit
  | cons certified events ih =>
    intro before step after u hsplit hu
    cases before with
    | nil =>
      obtain ⟨rfl, -⟩ := List.cons.inj hsplit
      obtain rfl := replay_nil.mp hu
      exact ⟨hfits certified List.mem_cons_self, stateCallback_agrees s certified⟩
    | cons first before =>
      obtain ⟨rfl, htail⟩ := List.cons.inj hsplit
      obtain ⟨t, ht, hrest⟩ := replay_cons.mp hu
      have ht' : s.applyEvent C certified = .ok t := ht
      rw [ht'] at htail
      exact ih (fun c hc => hfits c (List.mem_cons_of_mem _ hc)) before step after u htail hrest

end Replay

/-- A membership event and a key rotation. -/
def sampleEvents : List QuorumGuildEvent := DynamicGuildState.sampleState.transparentCertificates
    [(.addMember (DynamicGuildState.sampleMember 4 "cellar"), [⟨1⟩, ⟨2⟩]),
     (.rotateWriterKey ⟨4⟩ 1 11, [⟨1⟩, ⟨2⟩, ⟨4⟩])]

/-- Their steps, for a caller that keeps the full state. -/
def sampleSteps : List (Step GuildStateError) :=
  withCallbacks .transparent id DynamicGuildState.sampleState sampleEvents

theorem authority_replay_simulates_sample :
    DynamicGuildState.sampleState.validate .transparent = .ok () ∧ sampleSteps.length = 2 ∧
      ∃ a, fromState .transparent DynamicGuildState.sampleState = .ok a ∧
        Succeeds (advanceAll .transparent id a sampleSteps) := by
  have hvalid : DynamicGuildState.sampleState.validate .transparent = .ok () := by
    decide +kernel
  have hfits : ∀ certified ∈ sampleEvents, Fits certified := by decide +kernel
  have hfull : Succeeds (DynamicGuildState.applyEvents .transparent
      DynamicGuildState.sampleState (sampleSteps.map Prod.fst)) := by
    decide +kernel
  obtain ⟨a, ha, -, hreplay⟩ := authority_replay_simulates .transparent id
    DynamicGuildState.sampleState hvalid
  have hanswers : AnswersReplay .transparent id DynamicGuildState.sampleState a sampleSteps :=
    hreplay sampleSteps (withCallbacks_agree hfits) sampleSteps [] (List.append_nil _).symm
  exact ⟨hvalid, by decide +kernel, a, ha, hanswers.succeeds_iff.mpr hfull⟩

end GuildAuthoritySnapshot

end MutualBackup

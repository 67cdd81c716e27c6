import MutualBackup.Guild.Step

/-!
# Agreement of guild logs

Replicas of a guild extend the same genesis by the calls `apply_event` and `apply_tail`.  A run is a
list of such calls, all successful; `certificates` is what the run accepted in order, and `history`
the events without their signatures.

The state after an event does not depend on who signed it, so two runs that accepted the same events
are in the same state.  Where their histories first differ, both accepted an event in that common
state; each carries the signatures of a quorum of the members active there, in strictly increasing
signer order, and any two quorums of one state overlap.  The overlap has signed two events for one
place of the log: agreement can fail only with members who can be named
(`guild_log_agreement`).  Nothing is assumed about the hash or about the signatures.
-/

namespace MutualBackup

open Framework

/-- The signers of a certificate. -/
def QuorumGuildEvent.signers (certified : QuorumGuildEvent) : Finset NodeId :=
  (certified.signatures.map MemberSignature.signer).toFinset

namespace DynamicGuildState

/-! ## Runs -/

/-- A call that extends a replica's log. -/
inductive Call where
  | applyEvent (certified : QuorumGuildEvent)
  | applyTail (tail : GuildEventTail)
  deriving DecidableEq, Repr

namespace Call

/-- What a call adds to the log. -/
def certificates : Call → List QuorumGuildEvent
  | applyEvent certified => [certified]
  | applyTail tail => tail.events

/-- The call on a replica. -/
def apply (C : Crypto) (s : DynamicGuildState) : Call → Outcome GuildStateError DynamicGuildState
  | applyEvent certified => s.applyEvent C certified
  | applyTail tail => s.applyTail C tail

end Call

/-- A sequence of successful calls. -/
def run (C : Crypto) (s : DynamicGuildState) (calls : List Call) :
    Outcome GuildStateError DynamicGuildState :=
  replay (Call.apply C) s calls

/-- The certificates a run accepted, in order. -/
def certificates (calls : List Call) : List QuorumGuildEvent := calls.flatMap Call.certificates

/-- The events a run accepted, in order. -/
def history (calls : List Call) : List GuildEvent := (certificates calls).map QuorumGuildEvent.event

variable {C : Crypto} {s t : DynamicGuildState}

lemma Call.applyEvents_of_apply {call : Call} (h : call.apply C s = .ok t) :
    applyEvents C s call.certificates = .ok t := by
  cases call with
  | applyEvent certified => exact replay_cons.mpr ⟨t, h, replay_nil.mpr rfl⟩
  | applyTail tail =>
    obtain ⟨_, _, htail⟩ := bind_eq_ok.mp h
    exact htail

/-- A run is the replay of its certificates, whatever calls carried them. -/
lemma applyEvents_of_run {calls : List Call} (h : run C s calls = .ok t) :
    applyEvents C s (certificates calls) = .ok t := by
  induction calls generalizing s with
  | nil => exact h
  | cons call calls ih =>
    obtain ⟨m, hm, hrest⟩ := replay_cons.mp h
    exact replay_append.mpr ⟨m, Call.applyEvents_of_apply hm, ih hrest⟩

/-! ## Quorums of one state -/

/-- The certificate carries a signature of its event by `n`, and it verifies. -/
def HasSigned (C : Crypto) (certified : QuorumGuildEvent) (n : NodeId) : Prop :=
  ∃ signature ∈ certified.signatures, signature.signer = n ∧
    verifyGuildEventSignature C certified.event signature = .ok ()

variable {c : QuorumGuildEvent}

section

variable (h : s.Certified C c)

include h

lemma Certified.signers_subset : c.signers ⊆ s.activeIds := by
  intro n hn
  obtain ⟨signature, hmem, rfl⟩ := List.mem_map.mp (List.mem_toFinset.mp hn)
  exact (h.signers signature hmem).1

lemma Certified.hasSigned {n : NodeId} (hn : n ∈ c.signers) : HasSigned C c n := by
  obtain ⟨signature, hmem, rfl⟩ := List.mem_map.mp (List.mem_toFinset.mp hn)
  exact ⟨signature, hmem, rfl, (h.signers signature hmem).2⟩

lemma Certified.required_le_card {required : ℕ}
    (hreq : s.quorum.required s.activeIds.card = .ok required) : required ≤ c.signers.card := by
  obtain ⟨r, hr, hle⟩ := h.quorum
  rw [hreq] at hr
  cases hr
  rwa [QuorumGuildEvent.signers, h.ascending.card_toFinset_map]

end

/-- Two certificates accepted in one state share more members than the state has beyond two
quorums. -/
lemma overlap_of_certified {d : QuorumGuildEvent} (hc : s.Certified C c) (hd : s.Certified C d)
    {required : ℕ} (hreq : s.quorum.required s.activeIds.card = .ok required) :
    2 * required - s.activeIds.card ≤ (c.signers ∩ d.signers).card :=
  quorum_overlap hc.signers_subset hd.signers_subset (hc.required_le_card hreq)
    (hd.required_le_card hreq)

/-! ## Agreement -/

/-- Members active in a state who are signers of both certificates of two different events for one
place of the log; the two signatures of a member are evidence. -/
structure Equivocates (C : Crypto) (s : DynamicGuildState) (c d : QuorumGuildEvent)
    (members : Finset NodeId) : Prop where
  ne : c.event ≠ d.event
  guildId_eq : c.event.guildId = d.event.guildId
  sequence_eq : c.event.sequence = d.event.sequence
  parent_eq : c.event.parent = d.event.parent
  active : ∀ n ∈ members, ∃ member ∈ s.activeMembers, member.nodeId = n
  subset : members ⊆ c.signers ∩ d.signers
  signed : ∀ n ∈ members, HasSigned C c n ∧ HasSigned C d n

lemma InPlace.eq_of_inPlace {e f : GuildEvent} (he : s.InPlace e) (hf : s.InPlace f) :
    e.guildId = f.guildId ∧ e.sequence = f.sequence ∧ e.parent = f.parent :=
  ⟨he.guildId_eq.trans hf.guildId_eq.symm, Fin.ext (he.sequence_eq.trans hf.sequence_eq.symm),
    he.parent_eq.trans hf.parent_eq.symm⟩

/-- Two different events accepted in one state convict a quorum overlap. -/
lemma equivocates_of_applyEvent {d : QuorumGuildEvent} (hc : Succeeds (s.applyEvent C c))
    (hd : Succeeds (s.applyEvent C d)) (hne : c.event ≠ d.event) :
    ∃ required members, s.quorum.required s.activeMembers.length = .ok required ∧
      Equivocates C s c d members ∧ 2 * required - s.activeMembers.length ≤ members.card ∧
      1 ≤ 2 * required - s.activeMembers.length := by
  obtain ⟨_, hc⟩ := hc
  obtain ⟨_, hd⟩ := hd
  obtain ⟨hwf, hplaceC, hcertC, -⟩ := applyEvent_eq_ok.mp hc
  obtain ⟨-, hplaceD, hcertD, -⟩ := applyEvent_eq_ok.mp hd
  obtain ⟨hguild, hsequence, hparent⟩ := hplaceC.eq_of_inPlace hplaceD
  obtain ⟨required, hreq⟩ := hwf.quorum
  have hbounds := QuorumPolicy.required_bounds hreq
  have hoverlap := overlap_of_certified hcertC hcertD (by rw [hwf.card_activeIds]; exact hreq)
  rw [hwf.card_activeIds] at hoverlap
  refine ⟨required, c.signers ∩ d.signers, hreq,
    ⟨hne, hguild, hsequence, hparent, ?_, subset_rfl, ?_⟩, hoverlap, by omega⟩
  · intro n hn
    obtain ⟨m, hm, hactive, rfl⟩ :=
      mem_activeIds.mp (hcertC.signers_subset (Finset.mem_inter.mp hn).1)
    exact ⟨m.member, mem_activeMembers.mpr ⟨m, hm, hactive, rfl⟩, rfl⟩
  · intro n hn
    obtain ⟨hnc, hnd⟩ := Finset.mem_inter.mp hn
    exact ⟨hcertC.hasSigned hnc, hcertD.hasSigned hnd⟩

/-- One history extends the other; or the runs first differ in a common state, where at least
`2 * required - active` of the active members, and so at least one, are signers of both certificates
there. -/
def Accountable (C : Crypto) (s₀ : DynamicGuildState) (calls₁ calls₂ : List Call) : Prop :=
  history calls₁ <+: history calls₂ ∨ history calls₂ <+: history calls₁ ∨
    ∃ before₁ c₁ after₁ before₂ c₂ after₂ common, certificates calls₁ = before₁ ++ c₁ :: after₁ ∧
      certificates calls₂ = before₂ ++ c₂ :: after₂ ∧
      before₁.map QuorumGuildEvent.event = before₂.map QuorumGuildEvent.event ∧
      applyEvents C s₀ before₁ = .ok common ∧ applyEvents C s₀ before₂ = .ok common ∧
      ∃ required members, common.quorum.required common.activeMembers.length = .ok required ∧
        Equivocates C common c₁ c₂ members ∧
        2 * required - common.activeMembers.length ≤ members.card ∧
        1 ≤ 2 * required - common.activeMembers.length

/-- **Agreement with accountability.** Any two runs of successful calls from one state, the genesis
of a guild or a later one, agree on their history or convict an overlap of two quorums. -/
theorem guild_log_agreement (C : Crypto) (s₀ : DynamicGuildState) (calls₁ calls₂ : List Call)
    (h₁ : Succeeds (run C s₀ calls₁)) (h₂ : Succeeds (run C s₀ calls₂)) :
    Accountable C s₀ calls₁ calls₂ := by
  obtain ⟨s₁, h₁⟩ := h₁
  obtain ⟨s₂, h₂⟩ := h₂
  -- the next state is a function of the event: signatures are only checked
  have hdet : ∀ (s : DynamicGuildState) (a b : QuorumGuildEvent) (t u : DynamicGuildState),
      s.applyEvent C a = .ok t → s.applyEvent C b = .ok u → a.event = b.event → t = u := by
    intro s a b t u ha hb hab
    obtain ⟨-, -, -, hadvA⟩ := applyEvent_eq_ok.mp ha
    obtain ⟨-, -, -, hadvB⟩ := applyEvent_eq_ok.mp hb
    rw [hab] at hadvA
    exact hadvA.unique hadvB
  rcases replay_diverges hdet (applyEvents_of_run h₁) (applyEvents_of_run h₂) with
    h | h | ⟨before₁, c₁, after₁, before₂, c₂, after₂, common, hsplit₁, hsplit₂, hsame, hne,
      hcommon₁, hcommon₂, hc₁, hc₂⟩
  · exact .inl h
  · exact .inr (.inl h)
  · exact .inr (.inr ⟨before₁, c₁, after₁, before₂, c₂, after₂, common, hsplit₁, hsplit₂, hsame,
      hcommon₁, hcommon₂, equivocates_of_applyEvent hc₁ hc₂ hne⟩)

/-! ### A fork

Three members admit a fourth; then one replica accepts a removal signed by the first three, and
another a relabelling signed by the last three. -/

/-- A member of the transparent guild. -/
def sampleMember (n : Bytes 32) (failureDomain : String) : Member :=
  { nodeId := ⟨n⟩, recoveryPublicKey := ⟨n⟩, failureDomain := failureDomain }

def sampleQuorum : QuorumPolicy := { formatVersion := 1, rule := .majority }

/-- The members of the transparent guild, in the order they were invited. -/
def sampleMembers : List Member :=
  [sampleMember 3 "attic", sampleMember 1 "home", sampleMember 2 "office"]

/-- The genesis of the transparent guild. -/
def sampleState : DynamicGuildState :=
  { formatVersion := 1
    guildId := 7
    eventSequence := 0
    eventHead := 9
    membershipEpoch := 1
    quorum := sampleQuorum
    members := [sampleMember 1 "home", sampleMember 2 "office", sampleMember 3 "attic"].map
      fun member => { member := member, joinedAtEvent := 0, removedAtEvent := none }
    writerKeys := []
    recoveryKeys := []
    codingGroups := [] }

lemma new_sampleState :
    DynamicGuildState.new .transparent 7 9 sampleQuorum sampleMembers = .ok sampleState := by
  decide +kernel

/-- The calls of a replica that goes on with `kind` after the common admission, which arrives as a
tail. -/
def forkCalls (kind : GuildEventKind) (signers : List NodeId) : List Call :=
  let certs := sampleState.transparentCertificates
    [(.addMember (sampleMember 4 "cellar"), [⟨1⟩, ⟨2⟩]), (kind, signers)]
  [.applyTail
    { formatVersion := 1
      baseSequence := 0
      baseHead := 9
      events := certs.take 1 }] ++ (certs.drop 1).map .applyEvent

/-- The replica that removes the third member. -/
def removingCalls : List Call := forkCalls (.removeMember ⟨3⟩) [⟨1⟩, ⟨2⟩, ⟨3⟩]

/-- The replica that relabels the first member. -/
def relabellingCalls : List Call := forkCalls (.relabelMember ⟨1⟩ "away") [⟨2⟩, ⟨3⟩, ⟨4⟩]

theorem guild_log_agreement_fork :
    DynamicGuildState.new .transparent 7 9 sampleQuorum sampleMembers = .ok sampleState ∧
      Succeeds (run .transparent sampleState removingCalls) ∧
      Succeeds (run .transparent sampleState relabellingCalls) ∧
      ¬ history removingCalls <+: history relabellingCalls ∧
      ¬ history relabellingCalls <+: history removingCalls ∧
      Accountable .transparent sampleState removingCalls relabellingCalls := by
  have hremoving : Succeeds (run .transparent sampleState removingCalls) := by
    decide +kernel
  have hrelabelling : Succeeds (run .transparent sampleState relabellingCalls) := by
    decide +kernel
  exact ⟨new_sampleState, hremoving, hrelabelling, by decide +kernel, by decide +kernel,
    guild_log_agreement _ _ _ _ hremoving hrelabelling⟩

end DynamicGuildState

end MutualBackup

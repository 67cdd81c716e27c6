import MutualBackup.Guild.KeyEpochs
import MutualBackup.Guild.Retention
import MutualBackup.Guild.Simulation
import MutualBackup.Store.GuildHistory

/-!
# Who may write

Two answers to the question whether an owner's writer epoch is current: `writer_epoch_is_current`
looks at the key log of the full state alone, and `current_writer` of the history index also asks
that the owner is in the trusted roster.  The index holds the same keys as the state
(`applyEffect_of_applyEvent`), as long as it accepts the events about other rows, so the two answers
differ exactly on owners that are not active members (`currentWriter_ofState`).

Nothing revokes the keys of a removed member.  Along a run the two answers agree as long as every
removal finds its member without a current writer epoch, and they disagree right after the first one
that does not.
-/

namespace MutualBackup

open Framework EpochFields

/-! ## The index of a state -/

/-- The rows that index a state. -/
def WriterRows.ofState (s : DynamicGuildState) : WriterRows :=
  { writers := fun owner epoch => writerFields.find owner epoch s.writerKeys
    latestWriter := fun owner =>
      (writerFields.newest owner s.writerKeys).map WriterKeyEpoch.epoch }

variable {owner : NodeId} {epoch sequence : U64}
  {others : GuildAuthoritySnapshot → GuildEvent → Outcome CatalogStoreError Unit}

lemma validateWriter_eq_ok {C : Crypto} {entry : WriterKeyEpoch} :
    validateWriter C entry owner epoch sequence = .ok () ↔
      entry.owner = owner ∧ entry.epoch = epoch ∧ epoch ≠ 0 ∧
        writerFields.Within sequence entry ∧ C.isPoint entry.publicKey ∧
        ¬ C.isWeak entry.publicKey := by
  rw [validateWriter, bind_eq_ok]
  simp only [reject_eq_ok, verifyingKey_check_eq_ok, exists_unit]
  simp only [isSomeAnd]
  push Not
  constructor
  · rintro ⟨⟨howner, hepoch, hne, hact, hle, hrev⟩, hpoint, hweak⟩
    exact ⟨howner, hepoch, hne, ⟨hact, hle, hrev⟩, hpoint, hweak⟩
  · rintro ⟨howner, hepoch, hne, ⟨hact, hle, hrev⟩, hpoint, hweak⟩
    exact ⟨⟨howner, hepoch, hne, hact, hle, hrev⟩, hpoint, hweak⟩

namespace DynamicGuildState

variable {C : Crypto} {s t : DynamicGuildState}

/-- A writer entry of a well formed state passes the check of the index. -/
lemma WellFormed.validateWriter (hwf : s.WellFormed C) {entry : WriterKeyEpoch}
    (h : writerFields.find owner epoch s.writerKeys = some entry) :
    validateWriter C entry owner epoch s.eventSequence = .ok () := by
  obtain ⟨hmem, howner, hepoch⟩ := (find_eq_some hwf.writers.ascending).mp h
  have hne : epoch ≠ 0 := by
    rw [← hepoch]
    exact hwf.writers.numbered.epoch_ne_zero hmem
  exact validateWriter_eq_ok.mpr ⟨howner, hepoch, hne, hwf.writers.within entry hmem,
    hwf.writers.isPoint entry hmem, hwf.writers.not_weak entry hmem⟩

variable {n : NodeId}

lemma mem_activeIds_iff_member :
    n ∈ s.activeIds ↔ ∃ member ∈ s.activeMembers, member.nodeId = n := by
  simp only [activeIds, List.mem_toFinset, List.mem_map]

/-- The rows of a state after a rotation. -/
lemma ofState_rotate (hwf : s.WellFormed C) {event : GuildEvent} {publicKey : Bytes 32}
    (hkind : event.kind = .rotateWriterKey owner epoch publicKey) {m : DynamicMember}
    (hactive : s.requireActiveMember owner = .ok m)
    (hkey : C.isPoint publicKey ∧ ¬ C.isWeak publicKey)
    (hepoch : epoch.val = (writerFields.latest owner s.writerKeys).val + 1)
    {keys : List WriterKeyEpoch} (hkeys : keys = writerFields.append
      { owner := owner, epoch := epoch, publicKey := publicKey, activatedAtEvent := event.sequence,
        revokedAtEvent := none } s.writerKeys) (hasc : Ascending writerFields.order keys) :
    (WriterRows.ofState s).applyEffect C others s.snapshot event =
      .ok (WriterRows.ofState { s with writerKeys := keys }) := by
  subst hkeys
  have hs := hwf.writers.ascending
  have hlatest := latest_eq_newest hs owner
  have hactiveId : owner ∈ s.activeIds :=
    (exists_requireActiveMember hwf.members_ascending).mp ⟨m, hactive⟩
  obtain ⟨member, hmember, hid⟩ := mem_activeIds_iff_member.mp hactiveId
  have hnext : some epoch = (WriterRows.ofState s).nextEpoch owner := by
    have hrow : (WriterRows.ofState s).latestWriter owner =
        (writerFields.newest owner s.writerKeys).map writerFields.epoch := rfl
    rw [WriterRows.nextEpoch, hrow]
    rw [hlatest] at hepoch
    cases hnew : (writerFields.newest owner s.writerKeys).map writerFields.epoch with
    | none =>
      rw [hnew] at hepoch
      exact congrArg some (Fin.ext hepoch)
    | some latest =>
      rw [hnew] at hepoch
      exact (U64.checkedSucc_eq_some.mpr hepoch).symm
  have hzero : (writerFields.newest owner s.writerKeys).map writerFields.epoch ≠ some 0 := by
    intro h
    obtain ⟨entry, hentry, hzero⟩ := Option.map_eq_some_iff.mp h
    obtain ⟨hmem, -, -⟩ := (newest_eq_some hs).mp hentry
    exact hwf.writers.numbered.epoch_ne_zero hmem hzero
  have hfresh : writerFields.find owner epoch s.writerKeys = none := by
    by_contra hne
    obtain ⟨entry, hentry⟩ := Option.ne_none_iff_exists'.mp hne
    obtain ⟨hmem, howner, hep⟩ := (find_eq_some hs).mp hentry
    have hle : writerFields.epoch entry ≤ writerFields.latest (writerFields.owner entry) _ :=
      le_latest hmem
    rw [howner, hep] at hle
    have : epoch.val ≤ (writerFields.latest owner s.writerKeys).val := hle
    omega
  have hbelow : (writerFields.latest owner s.writerKeys).val < epoch.val := by omega
  simp only [WriterRows.applyEffect, hkind, bind_eq_ok, reject_eq_ok, okOr_eq_ok, exists_unit,
    Crypto.verifyingKey_eq_some, pure_eq_ok]
  refine ⟨fun h => h member hmember hid, publicKey, ⟨hkey.1, rfl⟩, hzero, ?_, ?_, ?_⟩
  · push Not
    exact ⟨by simpa using hkey.2, hnext⟩
  · show ¬ (writerFields.find owner epoch s.writerKeys).isSome
    rw [hfresh]
    simp
  · refine WriterRows.mk.injEq .. |>.mpr ⟨funext fun o => funext fun e => ?_, funext fun o => ?_⟩
    · exact (find_append hs hasc o e).symm
    · exact (newest_append hs hasc hbelow o).symm

/-- The rows of a state after a revocation. -/
lemma ofState_revoke (hwf : s.WellFormed C) {event : GuildEvent}
    (hkind : event.kind = .revokeWriterKey owner epoch) {keys : List WriterKeyEpoch}
    (hkeys : writerFields.revokeEntry GuildStateError.invalidEvent owner epoch event.sequence
      s.writerKeys = .ok keys) :
    (WriterRows.ofState s).applyEffect C others s.snapshot event =
      .ok (WriterRows.ofState { s with writerKeys := keys }) := by
  have hs := hwf.writers.ascending
  obtain ⟨entry, hfind, hrev, rfl⟩ := revokeEntry_eq_ok.mp hkeys
  obtain ⟨-, howner, hepoch⟩ := (find_eq_some hs).mp hfind
  simp only [WriterRows.applyEffect, hkind, bind_eq_ok, reject_eq_ok, okOr_eq_ok, exists_unit,
    pure_eq_ok]
  refine ⟨entry, hfind, hwf.validateWriter hfind, ?_, ?_⟩
  · show ¬ (writerFields.revokedAt entry).isSome
    rw [hrev]
    simp
  · refine WriterRows.mk.injEq .. |>.mpr ⟨funext fun o => funext fun e => ?_, funext fun o => ?_⟩
    · refine Eq.trans ?_ (find_modifyFirst_revoke hs o e).symm
      rw [hfind]
      show (if writerFields.owner entry = o ∧ writerFields.epoch entry = e then _ else _) = _
      rw [howner, hepoch]
      rfl
    · exact (newest_modifyFirst_revoke hs o).symm

variable {c : QuorumGuildEvent}

/-- **The index follows the state.** An accepted event has the effect on the rows that it has on the
writer keys, unless the effects on other rows are refused. -/
lemma applyEffect_of_applyEvent (h : s.applyEvent C c = .ok t)
    (hothers : c.event.kind.touchesOtherRows → others s.snapshot c.event = .ok ()) :
    (WriterRows.ofState s).applyEffect C others s.snapshot c.event =
      .ok (WriterRows.ofState t) := by
  obtain ⟨hwf, -, -, changed, head, heffect, -, rfl, hwf'⟩ := applyEvent_eq_ok.mp h
  have hasc : Ascending writerFields.order changed.writerKeys := hwf'.writers.ascending
  show _ = Except.ok (WriterRows.ofState changed)
  generalize hkind : c.event.kind = kind at heffect hothers
  cases heffect with
  | rotateWriterKey hactive hkey hepoch =>
    exact ofState_rotate hwf hkind hactive hkey hepoch rfl hasc
  | revokeWriterKey hkeys => exact ofState_revoke hwf hkind hkeys
  | addMember | removeMember | relabelMember | setQuorum =>
    simp only [WriterRows.applyEffect, hkind]
    rfl
  | _ =>
    simp only [WriterRows.applyEffect, hkind, hothers rfl, ok_bind]
    rfl

/-- One iteration of the replay of `build`: `advance_indexed`, whose callback writes the rows. -/
def indexEvent (C : Crypto) (p : GuildAuthoritySnapshot × WriterRows)
    (step : GuildAuthoritySnapshot.Step CatalogStoreError) :
    Outcome CatalogStoreError (GuildAuthoritySnapshot × WriterRows) := do
  let snapshot ← settled (p.1.advanceIndexed C .guild (fun before event => do
    let _ ← p.2.applyEffect C step.2 before event) step.1)
  let rows ← p.2.applyEffect C step.2 p.1 step.1.event
  pure (snapshot, rows)

/-- The snapshot and the rows of a state move on to those of the next one. -/
lemma indexEvent_of_applyEvent (hfits : GuildAuthoritySnapshot.Fits c)
    (hothers : c.event.kind.touchesOtherRows → others s.snapshot c.event = .ok ())
    (h : s.applyEvent C c = .ok t) :
    indexEvent C (s.snapshot, .ofState s) (c, others) = .ok (t.snapshot, .ofState t) := by
  have heffect := applyEffect_of_applyEvent h hothers
  obtain ⟨hwf, -, -, hadvances⟩ := applyEvent_eq_ok.mp h
  refine bind_eq_ok.mpr ⟨t.snapshot, settled_eq_ok.mpr
    ((GuildAuthoritySnapshot.advanceIndexed_eq_ok _ hwf (fun _ => ?_) hfits).mpr ⟨t, h, rfl⟩),
    bind_eq_ok.mpr ⟨_, heffect, rfl⟩⟩
  -- the callback accepts, and so does the state
  exact iff_of_true (bind_eq_ok.mpr ⟨_, heffect, rfl⟩) ⟨t, applyVerifiedEvent_eq_ok.mpr hadvances⟩

/-! ## The two answers -/

/-- The fence of an owner's newest epoch, unless it is revoked. -/
def currentFence (s : DynamicGuildState) (owner : NodeId) : Option WriterFence :=
  (writerFields.newest owner s.writerKeys).bind fun entry =>
    if entry.revokedAtEvent = none then some ⟨owner, entry.epoch, entry.publicKey⟩ else none

lemma exists_currentFence :
    (∃ fence, s.currentFence owner = some fence ∧ fence.epoch = epoch) ↔
      s.writerEpochIsCurrent owner epoch := by
  simp only [currentFence, Option.bind_eq_some_iff, Option.ite_none_right_eq_some, Option.some_inj]
  constructor
  · rintro ⟨_, ⟨entry, hentry, hrev, rfl⟩, hepoch⟩
    exact ⟨entry, hentry, hepoch, hrev⟩
  · rintro ⟨entry, hentry, hepoch, hrev⟩
    exact ⟨_, ⟨entry, hentry, hrev, rfl⟩, hepoch⟩

/-- The index of a state against a trust. -/
def historyIndex (s : DynamicGuildState) (trust : PagedCheckpointTrust) :
    CatalogGuildHistoryIndex :=
  { rows := .ofState s, trust := trust }

section

variable (hwf : s.WellFormed C)

include hwf

/-- **What the index answers**: the fence of the full state, for active members only. -/
lemma currentWriter_ofState {trust : PagedCheckpointTrust} (htip : MatchesTip s.snapshot trust)
    (owner : NodeId) :
    (s.historyIndex trust).currentWriter C owner trust =
      .ok (if owner ∈ s.activeIds then s.currentFence owner else none) := by
  have hroster : (∃ member ∈ trust.members, member.nodeId = owner) ↔ owner ∈ s.activeIds := by
    rw [← htip.members_eq, mem_activeIds_iff_member]
    rfl
  have hfence : (s.historyIndex trust).latestFence C owner trust = .ok (s.currentFence owner) := by
    have hs := hwf.writers.ascending
    have hrow : (s.historyIndex trust).rows.latestWriter owner =
        (writerFields.newest owner s.writerKeys).map writerFields.epoch := rfl
    unfold CatalogGuildHistoryIndex.latestFence currentFence
    rw [hrow]
    cases hnew : writerFields.newest owner s.writerKeys with
    | none => rfl
    | some entry =>
      obtain ⟨hmem, howner, -⟩ := (newest_eq_some hs).mp hnew
      have hfind : writerFields.find owner entry.epoch s.writerKeys = some entry :=
        (find_eq_some hs).mpr ⟨hmem, howner, rfl⟩
      have hne : entry.epoch ≠ 0 := hwf.writers.numbered.epoch_ne_zero hmem
      have hkey : (s.historyIndex trust).writerKey C owner entry.epoch trust =
          .ok (some entry) := by
        rw [CatalogGuildHistoryIndex.writerKey, bind_eq_ok]
        refine ⟨(), reject_eq_ok.mpr fun h => h rfl, ?_⟩
        have hwriter : (s.historyIndex trust).rows.writers owner entry.epoch = some entry := hfind
        rw [hwriter, ← htip.eventSequence_eq]
        exact bind_eq_ok.mpr ⟨(), hwf.validateWriter hfind, rfl⟩
      refine bind_eq_ok.mpr ⟨(), reject_eq_ok.mpr hne, ?_⟩
      exact bind_eq_ok.mpr ⟨_, hkey, rfl⟩
  rw [CatalogGuildHistoryIndex.currentWriter]
  refine bind_eq_ok.mpr ⟨(), reject_eq_ok.mpr fun h => h rfl, ?_⟩
  by_cases hactive : owner ∈ s.activeIds
  · rw [if_pos (hroster.mpr hactive), if_pos hactive, hfence]
  · rw [if_neg (hroster.not.mpr hactive), if_neg hactive]
    rfl

/-! ## Rosters -/

lemma mem_modifyActiveMember {f : DynamicMember → DynamicMember} {y : DynamicMember} :
    y ∈ s.modifyActiveMember n f ↔ (∃ x ∈ s.members, (x.member.nodeId = n ∧ x.isActive) ∧ y = f x) ∨
        (y ∈ s.members ∧ ¬ (y.member.nodeId = n ∧ y.isActive)) := by
  rw [modifyActiveMember, hwf.members_ascending.mem_modifyFirst (k := n)]
  · simp only [decide_eq_true_eq]
  · intro x hx
    exact (of_decide_eq_true hx).1

/-- An effect keeps every active member except the one it removes. -/
lemma Effect.activeIds_mono {sequence : U64} {kind : GuildEventKind}
    (h : s.Effect C sequence kind t) {n : NodeId} (hn : n ∈ s.activeIds)
    (hkept : kind ≠ .removeMember n) : n ∈ t.activeIds := by
  obtain ⟨d, hd, hact, rfl⟩ := mem_activeIds.mp hn
  cases h with
  | addMember hvalid hnew hepoch =>
    exact mem_activeIds.mpr ⟨d, mem_insertByKey.mpr (.inr hd), hact, rfl⟩
  | removeMember hactive hepoch hquorum =>
    refine mem_activeIds.mpr ⟨d, (mem_modifyActiveMember hwf).mpr (.inr ⟨hd, ?_⟩), hact, rfl⟩
    rintro ⟨rfl, -⟩
    exact hkept rfl
  | @relabelMember nodeId failureDomain epoch m hdomain hactive hepoch =>
    by_cases hid : d.member.nodeId = nodeId
    · exact mem_activeIds.mpr ⟨_, (mem_modifyActiveMember hwf).mpr
        (.inl ⟨d, hd, ⟨hid, hact⟩, rfl⟩), hact, rfl⟩
    · exact mem_activeIds.mpr ⟨d, (mem_modifyActiveMember hwf).mpr
        (.inr ⟨hd, fun h => hid h.1⟩), hact, rfl⟩
  | _ => exact hn

/-- A removed member is no longer active. -/
lemma Effect.not_mem_activeIds (h : s.Effect C sequence (.removeMember n) t) : n ∉ t.activeIds := by
  intro hn
  obtain ⟨d, hd, hact, hid⟩ := mem_activeIds.mp hn
  cases h with
  | removeMember hactive hepoch hquorum =>
    rcases (mem_modifyActiveMember hwf).mp hd with ⟨x, -, -, rfl⟩ | ⟨-, hnot⟩
    · cases hact
    · exact hnot ⟨hid, hact⟩

/-! ## Current writers are active -/

/-- An epoch that is current after an effect was current before, or the effect activated it for an
active member. -/
lemma Effect.writerEpochIsCurrent {kind : GuildEventKind} (h : s.Effect C sequence kind t)
    (hasc : Ascending writerFields.order t.writerKeys) (hcur : t.writerEpochIsCurrent owner epoch) :
    s.writerEpochIsCurrent owner epoch ∨ owner ∈ t.activeIds := by
  have hs := hwf.writers.ascending
  have hevolves := h.writer_evolves hwf
  obtain ⟨y, hy, hyo, hye, -, -⟩ := (isCurrent_iff hasc).mp hcur
  have hold : ∀ x ∈ s.writerKeys, writerFields.owner x = owner → writerFields.epoch x = epoch →
      s.writerEpochIsCurrent owner epoch := by
    intro x hx hxo hxe
    by_contra hnot
    exact hevolves.not_isCurrent hs hasc hx hxo hxe hnot hcur
  cases h with
  | rotateWriterKey hactive hkey hepoch =>
    rcases mem_append.mp hy with hy | rfl
    · exact .inl (hold y hy hyo hye)
    · rw [← hyo]
      exact .inr ((exists_requireActiveMember hwf.members_ascending).mp ⟨_, hactive⟩)
  | revokeWriterKey hkeys =>
    obtain ⟨-, -, -, rfl⟩ := revokeEntry_eq_ok.mp hkeys
    rcases (mem_modifyFirst_revoke hs).mp hy with ⟨x, hx, -, rfl⟩ | ⟨hy, -⟩
    · rw [owner_revoke] at hyo
      rw [epoch_revoke] at hye
      exact .inl (hold x hx hyo hye)
    · exact .inl (hold y hy hyo hye)
  | _ => exact .inl hcur

end

/-- Every owner with a current writer epoch is an active member. -/
def WritersActive (s : DynamicGuildState) : Prop :=
  ∀ owner epoch, s.writerEpochIsCurrent owner epoch → owner ∈ s.activeIds

/-- The event does not remove a member that has a current writer epoch. -/
def RemovesFenced (s : DynamicGuildState) (event : GuildEvent) : Prop :=
  ∀ nodeId, event.kind = .removeMember nodeId → ∀ epoch, ¬ s.writerEpochIsCurrent nodeId epoch

lemma writersActive_of_applyEvent (h : s.applyEvent C c = .ok t) (hactive : s.WritersActive)
    (hremoves : s.RemovesFenced c.event) : t.WritersActive := by
  obtain ⟨hwf, -, -, changed, head, heffect, -, rfl, hwf'⟩ := applyEvent_eq_ok.mp h
  intro owner epoch hcur
  have hasc : Ascending writerFields.order changed.writerKeys := hwf'.writers.ascending
  rcases heffect.writerEpochIsCurrent hwf hasc hcur with hold | hnew
  · exact heffect.activeIds_mono hwf (hactive owner epoch hold)
      fun hkind => hremoves owner hkind epoch hold
  · exact hnew

/-- A removal leaves the keys of its member behind. -/
lemma not_writersActive_of_remove (h : s.applyEvent C c = .ok t)
    (hremoves : ¬ s.RemovesFenced c.event) : ¬ t.WritersActive := by
  unfold RemovesFenced at hremoves
  push Not at hremoves
  obtain ⟨nodeId, hkind, epoch, hcur⟩ := hremoves
  obtain ⟨hwf, -, -, changed, head, heffect, -, rfl, -⟩ := applyEvent_eq_ok.mp h
  rw [hkind] at heffect
  have hgone := heffect.not_mem_activeIds hwf
  have hkeys : changed.writerKeys = s.writerKeys := by
    cases heffect
    rfl
  intro hactive
  refine hgone (hactive nodeId epoch ?_)
  show writerFields.IsCurrent changed.writerKeys nodeId epoch
  rw [hkeys]
  exact hcur

/-! ## Write authority over runs -/

/-- **Write authority.** Current writers are active members, and the state gives the answer of the
index to every question who may write. -/
structure WriteAuthority (C : Crypto) (s : DynamicGuildState) : Prop where
  active : s.WritersActive
  agrees : ∀ trust, MatchesTip s.snapshot trust → ∀ owner epoch,
    s.writerEpochIsCurrent owner epoch ↔
      ∃ fence, (s.historyIndex trust).currentWriter C owner trust = .ok (some fence) ∧
        fence.epoch = epoch

lemma writeAuthority_iff (hwf : s.WellFormed C) : s.WriteAuthority C ↔ s.WritersActive := by
  refine ⟨WriteAuthority.active, fun hactive => ⟨hactive, fun trust htip owner epoch => ?_⟩⟩
  rw [currentWriter_ofState hwf htip, ← exists_currentFence]
  constructor
  · rintro ⟨fence, hfence, hepoch⟩
    have howner := hactive owner epoch (exists_currentFence.mp ⟨fence, hfence, hepoch⟩)
    exact ⟨fence, by rw [if_pos howner, hfence], hepoch⟩
  · rintro ⟨fence, hfence, hepoch⟩
    refine ⟨fence, ?_, hepoch⟩
    have hsome := Except.ok.inj hfence
    split at hsome
    · exact hsome
    · cases hsome

/-- **Write authority over runs.** In every state of a run from a genesis the current writers are
active members and the two answers agree, exactly when no removal of the run finds its member with a
current writer epoch. -/
theorem write_authority_iff_removals_fenced (C : Crypto) (guildId genesisHash : Bytes 32)
    (quorum : QuorumPolicy) (members : List Member) (s₀ : DynamicGuildState)
    (hnew : DynamicGuildState.new C guildId genesisHash quorum members = .ok s₀)
    (calls : List Call) (hrun : Succeeds (run C s₀ calls)) :
    Along (fun s c => s.applyEvent C c) s₀ (certificates calls) (WriteAuthority C) ↔
      EveryStep (fun s c => s.applyEvent C c) s₀ (certificates calls)
        fun s c => s.RemovesFenced c.event := by
  obtain ⟨last, hrun⟩ := hrun
  constructor
  · refine everyStep_of_along (fun s c t _ hstep hauth => ?_) ⟨last, applyEvents_of_run hrun⟩
    by_contra hnot
    exact not_writersActive_of_remove hstep hnot hauth.active
  · intro hsteps before after s hsplit hs
    have hwf₀ := wellFormed_of_new hnew
    have hactive₀ : s₀.WritersActive := by
      obtain ⟨_, -, hs₀⟩ := bind_eq_ok.mp hnew
      rw [← pure_eq_ok.mp hs₀]
      rintro owner epoch ⟨entry, hentry, -⟩
      cases hentry
    have hinv := along_of_everyStep
      (P := fun s : DynamicGuildState => s.WellFormed C ∧ s.WritersActive) ⟨hwf₀, hactive₀⟩
      (fun s c t hs hfenced hstep => ⟨wellFormed_of_applyEvent hstep,
        writersActive_of_applyEvent hstep hs.2 hfenced⟩) hsteps
    obtain ⟨hwf, hactive⟩ := hinv before after s hsplit hs
    exact (writeAuthority_iff hwf).mpr hactive

/-- **The index of a guild's writers refines its state.**  The replay of `build` accepts every run
from a genesis whose effects on the recovery keys and the coding groups are accepted.  The writer
rows are then the writer keys of the last state, and the index answers with the newest epoch of an
active member, unless that is revoked. -/
theorem writer_index_refines_state (C : Crypto) (guildId genesisHash : Bytes 32)
    (quorum : QuorumPolicy) (members : List Member) (s₀ t : DynamicGuildState)
    (hnew : DynamicGuildState.new C guildId genesisHash quorum members = .ok s₀)
    (steps : List (GuildAuthoritySnapshot.Step CatalogStoreError))
    (hfits : ∀ step ∈ steps, GuildAuthoritySnapshot.Fits step.1)
    (hrun : replay (fun s step => s.applyEvent C step.1) s₀ steps = .ok t)
    (hothers : EveryStep (fun s step => s.applyEvent C step.1) s₀ steps fun s step =>
      step.1.event.kind.touchesOtherRows → step.2 s.snapshot step.1.event = .ok ()) :
    ∃ rows, replay (indexEvent C) (s₀.snapshot, ⟨fun _ _ => none, fun _ => none⟩) steps =
        .ok (t.snapshot, rows) ∧
      (∀ owner epoch entry, rows.writers owner epoch = some entry ↔
        entry ∈ t.writerKeys ∧ entry.owner = owner ∧ entry.epoch = epoch) ∧
      ∀ trust, MatchesTip t.snapshot trust → ∀ owner,
        (⟨rows, trust⟩ : CatalogGuildHistoryIndex).currentWriter C owner trust =
          .ok (if owner ∈ t.activeIds then t.currentFence owner else none) := by
  have hempty : WriterRows.ofState s₀ = ⟨fun _ _ => none, fun _ => none⟩ := by
    obtain ⟨_, -, hs₀⟩ := bind_eq_ok.mp hnew
    rw [← pure_eq_ok.mp hs₀]
    rfl
  have hwf : t.WellFormed C :=
    replay_invariant (fun _ _ _ _ => wellFormed_of_applyEvent) (wellFormed_of_new hnew) hrun
  refine ⟨.ofState t, ?_, fun _ _ _ => find_eq_some hwf.writers.ascending,
    fun _ htip owner => currentWriter_ofState hwf htip owner⟩
  rw [← hempty]
  -- induction on the events that are left, from the state they are replayed in
  clear hnew hempty
  induction steps generalizing s₀ with
  | nil =>
    obtain rfl := replay_nil.mp hrun
    exact replay_nil.mpr rfl
  | cons step steps ih =>
    obtain ⟨s, hs, hrest⟩ := replay_cons.mp hrun
    rw [List.forall_mem_cons] at hfits
    have hstep := indexEvent_of_applyEvent hfits.1 (hothers [] step steps s₀ rfl rfl) hs
    exact replay_cons.mpr ⟨_, hstep, ih s hfits.2 hrest (hothers.cons hs)⟩

/-- A member is added and activates a writer key, and a coding group is added. -/
def indexedSteps : List (GuildAuthoritySnapshot.Step CatalogStoreError) :=
  (sampleState.transparentCertificates [(.addMember (sampleMember 4 "cellar"), [⟨1⟩, ⟨2⟩]),
    (.rotateWriterKey ⟨4⟩ 1 11, [⟨1⟩, ⟨2⟩, ⟨4⟩]),
    (.addCodingGroup sampleGroup, [⟨1⟩, ⟨2⟩, ⟨4⟩])]).map fun c => (c, fun _ _ => .ok ())

theorem writer_index_refines_state_sample :
    ∃ t rows, replay (fun s step => s.applyEvent .transparent step.1) sampleState
        indexedSteps = .ok t ∧
      replay (indexEvent .transparent)
        (sampleState.snapshot, ⟨fun _ _ => none, fun _ => none⟩) indexedSteps =
          .ok (t.snapshot, rows) := by
  have hrun : Succeeds (replay (fun s step => s.applyEvent .transparent step.1) sampleState
      indexedSteps) := by decide +kernel
  have hothers : EveryStep (fun s step => s.applyEvent .transparent step.1) sampleState
      indexedSteps fun s step =>
        step.1.event.kind.touchesOtherRows → step.2 s.snapshot step.1.event = .ok () := by
    intro before step after s hsplit _ _
    have hmem : step ∈ indexedSteps := by rw [hsplit]; simp
    obtain ⟨c, -, rfl⟩ := List.mem_map.mp hmem
    rfl
  obtain ⟨t, ht⟩ := hrun
  obtain ⟨rows, hrows, -⟩ := writer_index_refines_state _ _ _ _ _ _ _ new_sampleState indexedSteps
    (by decide +kernel) ht hothers
  exact ⟨t, rows, ht, hrows⟩

/-! ### A removed writer

The first member activates a writer key and is removed. -/

def removedWriterCalls : List Call := (sampleState.transparentCertificates
    [(.rotateWriterKey ⟨1⟩ 1 11, [⟨1⟩, ⟨2⟩]), (.removeMember ⟨1⟩, [⟨2⟩, ⟨3⟩])]).map .applyEvent

/-- The state after the removal. -/
def removedWriterState : DynamicGuildState :=
  (run .transparent sampleState removedWriterCalls).toOption.getD sampleState

/-- The trust of a reader at the tip of a state. -/
def tipTrust (s : DynamicGuildState) : PagedCheckpointTrust :=
  { guildId := s.guildId
    genesisHash := 9
    eventSequence := s.eventSequence
    eventHead := s.eventHead
    authority := { formatVersion := 1, membershipEpoch := s.membershipEpoch, quorum := s.quorum }
    members := s.activeMembers
    previous := none }

theorem removed_writer_is_current :
    DynamicGuildState.new .transparent 7 9 sampleQuorum sampleMembers = .ok sampleState ∧
      run .transparent sampleState removedWriterCalls = .ok removedWriterState ∧
      removedWriterState.writerEpochIsCurrent ⟨1⟩ 1 ∧ ⟨1⟩ ∉ removedWriterState.activeIds ∧
      (removedWriterState.historyIndex removedWriterState.tipTrust).currentWriter
        Crypto.transparent ⟨1⟩ removedWriterState.tipTrust = .ok none :=
  ⟨new_sampleState, by decide +kernel, by decide +kernel, by decide +kernel, by decide +kernel⟩

/-- The key is revoked before its owner is removed. -/
def revokedWriterCalls : List Call := (sampleState.transparentCertificates
    [(.rotateWriterKey ⟨1⟩ 1 11, [⟨1⟩, ⟨2⟩]), (.revokeWriterKey ⟨1⟩ 1, [⟨2⟩, ⟨3⟩]),
     (.removeMember ⟨1⟩, [⟨2⟩, ⟨3⟩])]).map .applyEvent

theorem write_authority_iff_removals_fenced_revoked :
    (certificates revokedWriterCalls).length = 3 ∧
      Succeeds (run .transparent sampleState revokedWriterCalls) ∧
      (Along (fun s c => s.applyEvent .transparent c) sampleState
          (certificates revokedWriterCalls) (WriteAuthority .transparent) ↔
        EveryStep (fun s c => s.applyEvent .transparent c) sampleState
          (certificates revokedWriterCalls) fun s c => s.RemovesFenced c.event) := by
  have hrun : Succeeds (run .transparent sampleState revokedWriterCalls) := by
    decide +kernel
  exact ⟨by decide +kernel, hrun,
    write_authority_iff_removals_fenced _ _ _ _ _ _ new_sampleState _ hrun⟩

end DynamicGuildState

end MutualBackup

import MutualBackup.Guild.Agreement

/-!
# Key epochs over runs

The writer and recovery keys of a guild are two logs of numbered epochs.  An accepted event evolves
both (`evolves_of_applyEvent`): a rotation appends the number after the latest, a revocation marks
an entry, and every other event leaves the logs alone.  Evolution is a preorder, so it holds between
any two states of a run, and the fencing facts of the logs carry over to whole runs.

`Reachable` are the states of a guild since its genesis, and `Later` the states a further run of
calls leads to.
-/

namespace MutualBackup

open Framework EpochFields

namespace DynamicGuildState

variable {C : Crypto} {s t u : DynamicGuildState}

/-! ## Reachable states -/

/-- A run of successful calls leads from one state to the other. -/
def Later (C : Crypto) (s t : DynamicGuildState) : Prop := ∃ calls, run C s calls = .ok t

/-- A run of successful calls leads from a genesis to the state. -/
def Reachable (C : Crypto) (s : DynamicGuildState) : Prop :=
  ∃ guildId genesisHash quorum members s₀,
    DynamicGuildState.new C guildId genesisHash quorum members = .ok s₀ ∧ Later C s₀ s

lemma wellFormed_of_new {guildId genesisHash : Bytes 32} {quorum : QuorumPolicy}
    {members : List Member}
    (h : DynamicGuildState.new C guildId genesisHash quorum members = .ok s) :
    s.WellFormed C := by
  obtain ⟨_, hvalid, hs⟩ := bind_eq_ok.mp h
  rw [← pure_eq_ok.mp hs]
  exact validate_eq_ok.mp hvalid

/-! ## One event -/

section

variable {sequence : U64} {kind : GuildEventKind} (hwf : s.WellFormed C)
  (h : s.Effect C sequence kind t)

include hwf h

lemma Effect.writer_evolves : writerFields.Evolves s.writerKeys t.writerKeys := by
  cases h with
  | rotateWriterKey hactive hkey hepoch =>
    exact evolves_append ((Nat.lt_succ_self _).trans_eq hepoch.symm)
  | revokeWriterKey hkeys => exact evolves_of_revokeEntry hwf.writers.ascending hkeys
  | _ => exact .refl _

lemma Effect.recovery_evolves : recoveryFields.Evolves s.recoveryKeys t.recoveryKeys := by
  cases h with
  | rotateRecoveryKey hactive henvelope hepoch =>
    exact evolves_append ((Nat.lt_succ_self _).trans_eq hepoch.symm)
  | revokeRecoveryKey hkeys =>
    exact evolves_of_revokeEntry hwf.recoveries.ascending hkeys
  | _ => exact .refl _

end

/-- Both key logs evolve. -/
structure KeysEvolve (s t : DynamicGuildState) : Prop where
  writer : writerFields.Evolves s.writerKeys t.writerKeys
  recovery : recoveryFields.Evolves s.recoveryKeys t.recoveryKeys

lemma KeysEvolve.refl (s : DynamicGuildState) : KeysEvolve s s := ⟨.refl _, .refl _⟩

lemma KeysEvolve.trans (hst : KeysEvolve s t) (htu : KeysEvolve t u) : KeysEvolve s u :=
  ⟨hst.writer.trans htu.writer, hst.recovery.trans htu.recovery⟩

lemma evolves_of_applyEvent {c : QuorumGuildEvent} (h : s.applyEvent C c = .ok t) :
    KeysEvolve s t := by
  obtain ⟨hwf, -, -, changed, head, heffect, -, rfl, -⟩ := applyEvent_eq_ok.mp h
  have hwriter := heffect.writer_evolves hwf
  have hrecovery := heffect.recovery_evolves hwf
  exact ⟨hwriter, hrecovery⟩

/-! ## Runs -/

lemma Later.evolves (hs : s.WellFormed C) (h : Later C s t) :
    t.WellFormed C ∧ KeysEvolve s t := by
  obtain ⟨calls, hrun⟩ := h
  refine replay_rel (P := fun s => s.WellFormed C) (fun s c t _ hstep => ?_) KeysEvolve.refl
    KeysEvolve.trans hs (applyEvents_of_run hrun)
  exact ⟨wellFormed_of_applyEvent hstep, evolves_of_applyEvent hstep⟩

lemma Reachable.wellFormed (h : Reachable C s) : s.WellFormed C := by
  obtain ⟨_, _, _, _, s₀, hnew, hlater⟩ := h
  exact (hlater.evolves (wellFormed_of_new hnew)).1

/-! ## The queries -/

/-- The epoch of `current_recovery_key`. -/
def recoveryEpochIsCurrent (s : DynamicGuildState) (subject : NodeId) (epoch : U64) : Prop :=
  ∃ entry, s.currentRecoveryKey subject = some entry ∧ entry.envelope.epoch = epoch

/-- The envelope recorded for an epoch. -/
def recoveryEnvelope (s : DynamicGuildState) (subject : NodeId) (epoch : U64) :
    Option RecoveryKeyEnvelope :=
  (recoveryFields.find subject epoch s.recoveryKeys).map RecoveryKeyEpoch.envelope

lemma recoveryEpochIsCurrent_iff {subject : NodeId} {epoch : U64} :
    s.recoveryEpochIsCurrent subject epoch ↔
      recoveryFields.IsCurrent s.recoveryKeys subject epoch := by
  unfold recoveryEpochIsCurrent currentRecoveryKey EpochFields.IsCurrent isSomeAnd
  constructor
  · rintro ⟨entry, hentry, hepoch⟩
    obtain ⟨hnewest, hrev⟩ := Option.filter_eq_some_iff.mp hentry
    exact ⟨entry, hnewest, hepoch, of_decide_eq_true hrev⟩
  · rintro ⟨entry, hnewest, hepoch, hrev⟩
    exact ⟨entry, Option.filter_eq_some_iff.mpr ⟨hnewest, decide_eq_true hrev⟩, hepoch⟩

/-- A rotation records its key. -/
lemma writerKey_of_rotate {c : QuorumGuildEvent} {owner : NodeId} {epoch : U64}
    {publicKey : Bytes 32} (h : s.applyEvent C c = .ok t)
    (hkind : c.event.kind = .rotateWriterKey owner epoch publicKey) :
    t.writerKeyForRetainedRevision owner epoch = some publicKey := by
  obtain ⟨-, -, -, changed, head, heffect, -, rfl, hwf⟩ := applyEvent_eq_ok.mp h
  rw [hkind] at heffect
  cases heffect
  rw [writerKeyForRetainedRevision, Option.map_eq_some_iff]
  exact ⟨_, (find_eq_some hwf.writers.ascending).mpr
    ⟨mem_append.mpr (.inr rfl), rfl, rfl⟩, rfl⟩

lemma recoveryEnvelope_of_rotate {c : QuorumGuildEvent} {envelope : RecoveryKeyEnvelope}
    (h : s.applyEvent C c = .ok t) (hkind : c.event.kind = .rotateRecoveryKey envelope) :
    t.recoveryEnvelope envelope.subject envelope.epoch = some envelope := by
  obtain ⟨-, -, -, changed, head, heffect, -, rfl, hwf⟩ := applyEvent_eq_ok.mp h
  rw [hkind] at heffect
  cases heffect
  rw [recoveryEnvelope, Option.map_eq_some_iff]
  exact ⟨_, (find_eq_some hwf.recoveries.ascending).mpr
    ⟨mem_append.mpr (.inr rfl), rfl, rfl⟩, rfl⟩

/-! ## Fencing -/

/-- What holds of key epochs in a state `s`, a later state `t` and a still later state `u`. -/
structure KeyFencing (C : Crypto) (s t u : DynamicGuildState) : Prop where
  /-- An owner has at most one current writer epoch. -/
  writer_unique : ∀ owner m n, s.writerEpochIsCurrent owner m → s.writerEpochIsCurrent owner n →
    m = n
  /-- A writer epoch that has stopped being current stays so. -/
  writer_fenced : ∀ owner epoch, s.writerEpochIsCurrent owner epoch →
    ¬ t.writerEpochIsCurrent owner epoch → ¬ u.writerEpochIsCurrent owner epoch
  /-- The key a rotation records is returned in every later state. -/
  writer_recorded : ∀ c owner epoch publicKey, s.applyEvent C c = .ok t →
    c.event.kind = .rotateWriterKey owner epoch publicKey →
    t.writerKeyForRetainedRevision owner epoch = some publicKey ∧
      u.writerKeyForRetainedRevision owner epoch = some publicKey
  /-- The key returned for an epoch never changes. -/
  writer_kept : ∀ owner epoch publicKey,
    s.writerKeyForRetainedRevision owner epoch = some publicKey →
    t.writerKeyForRetainedRevision owner epoch = some publicKey
  /-- After the newest writer epoch is revoked, no older one is current. -/
  writer_revoked : ∀ c owner epoch, s.applyEvent C c = .ok t →
    c.event.kind = .revokeWriterKey owner epoch → s.writerEpochIsCurrent owner epoch →
    ∀ older, ¬ t.writerEpochIsCurrent owner older
  /-- A subject has at most one current recovery epoch. -/
  recovery_unique : ∀ subject m n, s.recoveryEpochIsCurrent subject m →
    s.recoveryEpochIsCurrent subject n → m = n
  /-- A recovery epoch that has stopped being current stays so. -/
  recovery_fenced : ∀ subject epoch, s.recoveryEpochIsCurrent subject epoch →
    ¬ t.recoveryEpochIsCurrent subject epoch → ¬ u.recoveryEpochIsCurrent subject epoch
  /-- The envelope a rotation records stays in every later state. -/
  recovery_recorded : ∀ c envelope, s.applyEvent C c = .ok t →
    c.event.kind = .rotateRecoveryKey envelope →
    t.recoveryEnvelope envelope.subject envelope.epoch = some envelope ∧
      u.recoveryEnvelope envelope.subject envelope.epoch = some envelope
  /-- The envelope recorded for an epoch never changes. -/
  recovery_kept : ∀ subject epoch envelope, s.recoveryEnvelope subject epoch = some envelope →
    t.recoveryEnvelope subject epoch = some envelope
  /-- After the newest recovery epoch is revoked, no older one is current. -/
  recovery_revoked : ∀ c subject epoch, s.applyEvent C c = .ok t →
    c.event.kind = .revokeRecoveryKey subject epoch → s.recoveryEpochIsCurrent subject epoch →
    ∀ older, ¬ t.recoveryEpochIsCurrent subject older

/-- **Key epochs are fenced over every run.** -/
theorem key_epoch_fencing (C : Crypto) (s t u : DynamicGuildState) (hs : Reachable C s)
    (hst : Later C s t) (htu : Later C t u) : KeyFencing C s t u := by
  have hwfs := hs.wellFormed
  obtain ⟨hwft, hevst⟩ := hst.evolves hwfs
  obtain ⟨hwfu, hevtu⟩ := htu.evolves hwft
  refine
    { writer_unique := fun owner m n hm hn => EpochFields.IsCurrent.unique hm hn
      writer_fenced := fun owner epoch hcur hnot => ?_
      writer_recorded := fun c owner epoch publicKey hstep hkind => ?_
      writer_kept := fun owner epoch publicKey hkey => ?_
      writer_revoked := fun c owner epoch hstep hkind hcur older => ?_
      recovery_unique := fun subject m n hm hn => ?_
      recovery_fenced := fun subject epoch hcur hnot => ?_
      recovery_recorded := fun c envelope hstep hkind => ?_
      recovery_kept := fun subject epoch envelope hkey => ?_
      recovery_revoked := fun c subject epoch hstep hkind hcur older => ?_ }
  · exact EpochFields.IsCurrent.fenced hcur hwfs.writers.ascending hwft.writers.ascending
      hwfu.writers.ascending hevst.writer hevtu.writer hnot
  · have hrec := writerKey_of_rotate hstep hkind
    exact ⟨hrec, hevtu.writer.find_key hwft.writers.ascending hwfu.writers.ascending hrec⟩
  · exact hevst.writer.find_key hwfs.writers.ascending hwft.writers.ascending hkey
  · obtain ⟨-, -, -, changed, head, heffect, -, rfl, -⟩ := applyEvent_eq_ok.mp hstep
    rw [hkind] at heffect
    cases heffect with
    | revokeWriterKey hkeys =>
      exact EpochFields.not_isCurrent_of_revokeEntry hwfs.writers.ascending hkeys hcur older
  · exact (recoveryEpochIsCurrent_iff.mp hm).unique (recoveryEpochIsCurrent_iff.mp hn)
  · rw [recoveryEpochIsCurrent_iff] at hcur hnot ⊢
    exact hcur.fenced hwfs.recoveries.ascending hwft.recoveries.ascending
      hwfu.recoveries.ascending hevst.recovery hevtu.recovery hnot
  · have hrec := recoveryEnvelope_of_rotate hstep hkind
    exact ⟨hrec, hevtu.recovery.find_key hwft.recoveries.ascending hwfu.recoveries.ascending hrec⟩
  · exact hevst.recovery.find_key hwfs.recoveries.ascending hwft.recoveries.ascending hkey
  · obtain ⟨-, -, -, changed, head, heffect, -, rfl, -⟩ := applyEvent_eq_ok.mp hstep
    rw [hkind] at heffect
    rw [recoveryEpochIsCurrent_iff] at hcur ⊢
    cases heffect with
    | revokeRecoveryKey hkeys =>
      exact EpochFields.not_isCurrent_of_revokeEntry hwfs.recoveries.ascending hkeys hcur older

/-! ### A rotation and a revocation

The first member activates a writer key, replaces it and revokes the replacement. -/

def writerCalls : List Call := (sampleState.transparentCertificates
    [(.rotateWriterKey ⟨1⟩ 1 11, [⟨1⟩, ⟨2⟩]), (.rotateWriterKey ⟨1⟩ 2 12, [⟨1⟩, ⟨3⟩]),
     (.revokeWriterKey ⟨1⟩ 2, [⟨1⟩, ⟨2⟩])]).map .applyEvent

/-- The state after the first calls. -/
def writerState (n : Nat) : DynamicGuildState :=
  (run .transparent sampleState (writerCalls.take n)).toOption.getD sampleState

theorem key_epoch_fencing_rotated :
    (writerState 1).writerEpochIsCurrent ⟨1⟩ 1 ∧ (writerState 2).writerEpochIsCurrent ⟨1⟩ 2 ∧
      (writerState 3).writerKeyForRetainedRevision ⟨1⟩ 1 = some 11 ∧
      Reachable .transparent (writerState 1) ∧
      KeyFencing .transparent (writerState 1) (writerState 2) (writerState 3) := by
  have hs : Reachable .transparent (writerState 1) :=
    ⟨_, _, _, _, _, new_sampleState, writerCalls.take 1, by decide +kernel⟩
  have hst : Later .transparent (writerState 1) (writerState 2) :=
    ⟨(writerCalls.drop 1).take 1, by decide +kernel⟩
  have htu : Later .transparent (writerState 2) (writerState 3) :=
    ⟨writerCalls.drop 2, by decide +kernel⟩
  exact ⟨by decide +kernel, by decide +kernel, by decide +kernel, hs,
    key_epoch_fencing _ _ _ _ hs hst htu⟩

end DynamicGuildState

end MutualBackup

import MutualBackup.Framework.KeyedMap
import MutualBackup.Core.Coding

/-!
# Coding plans

A coding attempt fixes beforehand what it will code and where the parity goes.  Its geometry names
an owner and a failure domain for every information shard and for every parity shard;
`CodingPlanGeometry.validate` checks the counts against the profile, every role by itself, and that
no failure domain is used twice (`CodingPlanGeometry.validate_eq_ok`).
-/

namespace MutualBackup

open Framework List

structure ParityPlacementV2 where
  holder : NodeId
  failureDomain : String
  row : U16
  deriving DecidableEq, Repr

structure CodingPlanGeometry where
  formatVersion : U16
  guildId : Bytes 32
  profile : CodingProfile
  information : List InformationRoleV2
  parity : List ParityPlacementV2
  deriving DecidableEq, Repr

inductive CodingAttemptError where
  | invalidPlan
  | invalidTranscript
  | incomplete
  | invalidInformation
  | coding (e : CodingError)
  | model (e : ModelError)
  deriving DecidableEq, Repr

section Validate

variable (C : Crypto)

/-- A virtual-zero sector has the commitment of zeros and the full length, another one has some. -/
def RangeSectorRef.checkPayload (profile : CodingProfile) (sector : RangeSectorRef) :
    Outcome CodingAttemptError Unit :=
  if sector.virtualZero then do
    reject (sector.logicalLen ≠ profile.shardSize) .invalidPlan
    let zero ← mapErr (fun _ => .invalidPlan) (merkleZeroCommitment C profile.shardSize)
    reject (sector.commitment ≠ zero) .invalidPlan
  else
    reject (sector.logicalLen = 0) .invalidPlan

/-- The checks of one information role, with the failure domains already used. -/
def InformationRoleV2.checkPlanned (profile : CodingProfile) (domains : List String)
    (role : InformationRoleV2) : Outcome CodingAttemptError (List String) := do
  mapErr (fun _ => .invalidPlan) role.sector.commitment.validate
  reject (role.owner = ⟨0⟩ ∨ role.failureDomain = "" ∨ 256 < role.failureDomain.utf8ByteSize ∨
    role.sector.id = 0 ∨ role.sector.commitment.byteLen ≠ profile.shardSize ∨
    profile.shardSize < role.sector.logicalLen ∨ role.failureDomain ∈ domains) .invalidPlan
  role.sector.checkPayload C profile
  pure (role.failureDomain :: domains)

/-- The checks of one parity placement at its position. -/
def ParityPlacementV2.checkPlanned (domains : List String) (entry : ParityPlacementV2 × ℕ) :
    Outcome CodingAttemptError (List String) := do
  reject (entry.1.holder = ⟨0⟩ ∨ entry.1.row.val ≠ entry.2 % 2 ^ 16 ∨
    entry.1.failureDomain = "" ∨ 256 < entry.1.failureDomain.utf8ByteSize ∨
    entry.1.failureDomain ∈ domains) .invalidPlan
  pure (entry.1.failureDomain :: domains)

/-- `CodingPlanGeometry::validate`. -/
def CodingPlanGeometry.validate (g : CodingPlanGeometry) : Outcome CodingAttemptError Unit := do
  mapErr (fun _ => .invalidPlan) g.profile.validate
  reject (g.formatVersion ≠ 1 ∨ g.guildId = 0 ∨ g.information.length ≠ g.profile.dataShards.val ∨
    g.parity.length ≠ g.profile.parityShards.val) .invalidPlan
  let domains ← replay (InformationRoleV2.checkPlanned C g.profile) [] g.information
  let _ ← replay ParityPlacementV2.checkPlanned domains g.parity.zipIdx
  pure ()

end Validate

/-! ## What validation means -/

variable {C : Crypto}

/-- An information role that fits its profile, apart from the other roles. -/
structure InformationRoleV2.Planned (C : Crypto) (profile : CodingProfile)
    (role : InformationRoleV2) : Prop where
  commitment : role.sector.commitment.validate = .ok ()
  owner : role.owner ≠ ⟨0⟩
  domain : role.failureDomain ≠ "" ∧ role.failureDomain.utf8ByteSize ≤ 256
  id : role.sector.id ≠ 0
  byteLen : role.sector.commitment.byteLen = profile.shardSize
  logicalLen : role.sector.logicalLen ≤ profile.shardSize
  payload : if role.sector.virtualZero then role.sector.logicalLen = profile.shardSize ∧
      merkleZeroCommitment C profile.shardSize = .ok role.sector.commitment
    else role.sector.logicalLen ≠ 0

lemma RangeSectorRef.checkPayload_eq_ok {profile : CodingProfile} {sector : RangeSectorRef} :
    sector.checkPayload C profile = .ok () ↔
      if sector.virtualZero then sector.logicalLen = profile.shardSize ∧
        merkleZeroCommitment C profile.shardSize = .ok sector.commitment
      else sector.logicalLen ≠ 0 := by
  rw [checkPayload]
  split
  · simp only [bind_eq_ok, exists_unit, reject_eq_ok, mapErr_eq_ok, not_not]
    constructor
    · rintro ⟨hlen, zero, hzero, heq⟩
      exact ⟨hlen, heq ▸ hzero⟩
    · rintro ⟨hlen, hzero⟩
      exact ⟨hlen, _, hzero, rfl⟩
  · rw [reject_eq_ok]

lemma InformationRoleV2.checkPlanned_eq_ok {profile : CodingProfile}
    {domains domains' : List String} {role : InformationRoleV2} :
    role.checkPlanned C profile domains = .ok domains' ↔
      role.Planned C profile ∧ role.failureDomain ∉ domains ∧
        domains' = role.failureDomain :: domains := by
  rw [checkPlanned]
  simp only [bind_eq_ok, exists_unit, reject_eq_ok, mapErr_eq_ok, pure_eq_ok, not_or, not_lt,
    not_not, RangeSectorRef.checkPayload_eq_ok]
  constructor
  · rintro ⟨hcommitment, ⟨howner, hname, hsize, hid, hbytes, hlen, hnew⟩, hpayload, rfl⟩
    exact ⟨⟨hcommitment, howner, ⟨hname, hsize⟩, hid, hbytes, hlen, hpayload⟩, hnew, rfl⟩
  · rintro ⟨h, hnew, rfl⟩
    exact ⟨h.commitment, ⟨h.owner, h.domain.1, h.domain.2, h.id, h.byteLen, h.logicalLen, hnew⟩,
      h.payload, rfl⟩

/-- A parity placement at its position, apart from the other roles. -/
structure ParityPlacementV2.Planned (placement : ParityPlacementV2) (row : ℕ) : Prop where
  holder : placement.holder ≠ ⟨0⟩
  row : placement.row.val = row % 2 ^ 16
  domain : placement.failureDomain ≠ "" ∧ placement.failureDomain.utf8ByteSize ≤ 256

lemma ParityPlacementV2.checkPlanned_eq_ok {domains domains' : List String}
    {entry : ParityPlacementV2 × ℕ} : checkPlanned domains entry = .ok domains' ↔
      entry.1.Planned entry.2 ∧ entry.1.failureDomain ∉ domains ∧
        domains' = entry.1.failureDomain :: domains := by
  rw [checkPlanned]
  simp only [bind_eq_ok, exists_unit, reject_eq_ok, pure_eq_ok, not_or, not_lt, not_not]
  constructor
  · rintro ⟨⟨hholder, hrow, hname, hsize, hnew⟩, rfl⟩
    exact ⟨⟨hholder, hrow, ⟨hname, hsize⟩⟩, hnew, rfl⟩
  · rintro ⟨h, hnew, rfl⟩
    exact ⟨⟨h.holder, h.row, h.domain.1, h.domain.2, hnew⟩, rfl⟩

namespace CodingPlanGeometry

/-- The failure domains of all roles. -/
def domains (g : CodingPlanGeometry) : List String :=
  (g.information.map InformationRoleV2.failureDomain) ++
    g.parity.map ParityPlacementV2.failureDomain

/-- A geometry that passes its check. -/
structure Valid (C : Crypto) (g : CodingPlanGeometry) : Prop where
  profile : g.profile.validate = .ok ()
  formatVersion : g.formatVersion = 1
  guildId : g.guildId ≠ 0
  information_length : g.information.length = g.profile.dataShards.val
  parity_length : g.parity.length = g.profile.parityShards.val
  information : ∀ role ∈ g.information, role.Planned C g.profile
  parity : ∀ entry ∈ g.parity.zipIdx, entry.1.Planned entry.2
  domains : g.domains.Nodup

/-- **What validation establishes.** -/
lemma validate_eq_ok {g : CodingPlanGeometry} : g.validate C = .ok () ↔ g.Valid C := by
  have hinformation := @collect_eq_ok String _ _ _ (InformationRoleV2.checkPlanned C g.profile)
    InformationRoleV2.failureDomain id (InformationRoleV2.Planned C g.profile)
    (fun seen role seen' => by
      rw [InformationRoleV2.checkPlanned_eq_ok, map_id]
      rfl)
  have hparity := @collect_eq_ok String _ _ _ ParityPlacementV2.checkPlanned
    (fun entry => entry.1.failureDomain) id (fun entry => entry.1.Planned entry.2)
    (fun seen entry seen' => by
      rw [ParityPlacementV2.checkPlanned_eq_ok, map_id]
      rfl)
  have hnames : (g.parity.zipIdx.map fun entry => entry.1.failureDomain) =
      g.parity.map ParityPlacementV2.failureDomain := by
    have hfst := congrArg (List.map ParityPlacementV2.failureDomain) (zipIdx_map_fst 0 g.parity)
    rwa [map_map] at hfst
  -- a domain is new to the second loop when the first has not used it
  have hfresh : (∀ entry ∈ g.parity.zipIdx, entry.1.failureDomain ∉
      (g.information.map InformationRoleV2.failureDomain).reverse ++ []) ↔
      ∀ a ∈ g.information.map InformationRoleV2.failureDomain,
        ∀ b ∈ g.parity.map ParityPlacementV2.failureDomain, a ≠ b := by
    rw [← hnames]
    simp only [append_nil, mem_reverse]
    constructor
    · rintro h a ha b hb rfl
      obtain ⟨entry, hentry, rfl⟩ := mem_map.mp hb
      exact h entry hentry ha
    · intro h entry hentry hmem
      exact h _ hmem _ (mem_map_of_mem hentry) rfl
  rw [validate]
  simp only [bind_eq_ok, exists_unit, reject_eq_ok, mapErr_eq_ok, not_or, not_not, hinformation,
    hparity, pure_eq_ok, id_eq, map_id, hnames]
  constructor
  · rintro ⟨hprofile, ⟨hversion, hguild, hdata, hrows⟩, _, ⟨hgood, hnodup, -, rfl⟩, _,
      ⟨hgood', hnodup', hnew, rfl⟩, -⟩
    exact ⟨hprofile, hversion, hguild, hdata, hrows, hgood, hgood',
      nodup_append.mpr ⟨hnodup, hnodup', hfresh.mp hnew⟩⟩
  · intro h
    obtain ⟨hnodup, hnodup', hapart⟩ := nodup_append.mp h.domains
    exact ⟨h.profile, ⟨h.formatVersion, h.guildId, h.information_length, h.parity_length⟩, _,
      ⟨h.information, hnodup, fun _ _ => not_mem_nil, rfl⟩, _,
      ⟨h.parity, hnodup', hfresh.mpr hapart, rfl⟩, trivial⟩

end CodingPlanGeometry

end MutualBackup

import MutualBackup.Node.LaneConstruction
import MutualBackup.Node.LanePlanning

/-!
# The lanes that are built are the planned ones

`build_packed_coding_lanes` keeps a capacity map of its own and checks every lane of the plan
against it.  The two accounts agree: before each lane the builder's map is the planner's, since both
give up one shard for every holder of a lane (`Debits.unique`), so no check of the builder refuses a
planned lane.  A lane uses one failure domain for each of its sectors and parity shards, and the
profile is as wide as there are domains at most, so the virtual roles find domains that are free.
-/

namespace MutualBackup

open Framework List

variable {C : Crypto} {guildId : Bytes 32} {revisionId : Uuid} {peers : List GuildPeer}
  {profile : CodingProfile}

/-! ## The profile -/

/-- The failure domains of the roster. -/
def rosterDomains (peers : List GuildPeer) : Finset String :=
  (peers.map fun peer => peer.member.failureDomain).toFinset

lemma mem_rosterDomains {domain : String} :
    domain ∈ rosterDomains peers ↔ ∃ peer ∈ peers, peer.member.failureDomain = domain := by
  rw [rosterDomains, mem_toFinset, mem_map]

/-- What the profile of a roster is. -/
structure RosterProfile (peers : List GuildPeer) (profile : CodingProfile) : Prop where
  valid : profile.validate = .ok ()
  shardSize : profile.shardSize.val = v1SectorSize
  data_pos : 0 < profile.dataShards.val
  width : profile.dataShards.val + profile.parityShards.val ≤ (rosterDomains peers).card

lemma rosterProfile_of_ok (h : variableCodingProfile peers = .ok profile) :
    RosterProfile peers profile := by
  rw [variableCodingProfile] at h
  obtain ⟨_, hfew, h⟩ := bind_eq_ok.mp h
  obtain ⟨_, hvalid, h⟩ := bind_eq_ok.mp h
  obtain rfl := pure_eq_ok.mp h
  rw [reject_eq_ok, not_lt] at hfew
  have hle : min (rosterDomains peers).card maxVariableCodingParticipants ≤
      (rosterDomains peers).card := min_le_left _ _
  have hfive : min (rosterDomains peers).card maxVariableCodingParticipants ≤ 5 := min_le_right _ _
  rw [rosterDomains] at hle hfive
  refine ⟨mapErr_eq_ok.mp hvalid, rfl, ?_, ?_⟩
  · simp only [Fin.val_ofNat]
    split <;> omega
  · rw [rosterDomains]
    simp only [Fin.val_ofNat]
    split <;> omega

/-! ## Sources -/

/-- The role of a sector on its holder. -/
def sourceRole (peers : List GuildPeer) (source : VariableInformationInput) : InformationRoleV2 :=
  { owner := source.owner
    failureDomain := (domainOf peers source.owner).getD ""
    sector := { id := source.sector.id
                commitment := source.commitment
                logicalLen := source.sector.logicalLen
                virtualZero := false } }

/-- A source that may be placed. -/
structure SourceGood (profile : CodingProfile) (source : VariableInformationInput) : Prop where
  root : source.sector.root ≠ 0
  byteLen : source.commitment.byteLen = profile.shardSize
  commitment : source.commitment.validate = .ok ()

section

variable (hids : DistinctNodes peers)

include hids

lemma find?_peer {node : NodeId} {domain : String} (h : domainOf peers node = some domain) :
    ∃ peer ∈ peers, peers.find? (fun peer => peer.member.nodeId = node) = some peer ∧
      peer.member.nodeId = node ∧ peer.member.failureDomain = domain := by
  obtain ⟨peer, hmem, hnode, hdomain⟩ := (domainOf_eq_some hids).mp h
  refine ⟨peer, hmem, ?_, hnode, hdomain⟩
  refine (find?_eq_some_of_unique fun p hp q hq hpn hqn => ?_).mpr ⟨hmem, decide_eq_true hnode⟩
  have hsame := (of_decide_eq_true hpn).trans (of_decide_eq_true hqn).symm
  exact inj_on_of_nodup_map hids hp hq hsame

/-- **Sources in different domains are placed**, each as its role. -/
lemma placeSources_eq {sources : List VariableInformationInput} {s : SourcePlacement}
    {chosen : List String} (hnodup : chosen.Nodup)
    (hchosen : (sources.map fun source => domainOf peers source.owner) = chosen.map some)
    (hnew : ∀ d ∈ chosen, d ∉ s.usedDomains)
    (hused : ∀ node ∈ s.usedNodes, ∃ d ∈ s.usedDomains, domainOf peers node = some d)
    (hgood : ∀ source ∈ sources, SourceGood profile source) :
    replay (placeSource peers profile) s sources =
      .ok { usedNodes := (sources.map VariableInformationInput.owner).reverse ++ s.usedNodes
            usedDomains := chosen.reverse ++ s.usedDomains
            information := s.information ++ sources.map (sourceRole peers)
            informationRoots := s.informationRoots ++ sources.map fun source => source.sector.root }
    := by
  induction sources generalizing s chosen with
  | nil =>
    obtain rfl := map_eq_nil_iff.mp hchosen.symm
    simp [replay_nil]
  | cons source sources ih =>
    cases chosen with
    | nil => cases hchosen
    | cons d chosen =>
      obtain ⟨hd, hrest⟩ := List.cons.inj hchosen
      obtain ⟨hdnew, hnodup⟩ := nodup_cons.mp hnodup
      obtain ⟨peer, -, hfind, hnode, hdomain⟩ := find?_peer hids hd
      have hgood' := hgood source mem_cons_self
      replace hd : domainOf peers source.owner = some d := hd
      have hrole : (domainOf peers source.owner).getD "" = peer.member.failureDomain := by
        rw [hd, hdomain]
        rfl
      have hplace : placeSource peers profile s source =
          .ok { usedNodes := source.owner :: s.usedNodes
                usedDomains := d :: s.usedDomains
                information := s.information ++ [sourceRole peers source]
                informationRoots := s.informationRoots ++ [source.sector.root] } := by
        have hfree : source.owner ∉ s.usedNodes := by
          intro hmem
          obtain ⟨e, he, hdomain'⟩ := hused _ hmem
          have hsame : d = e := Option.some.inj (hd.symm.trans hdomain')
          exact hnew d mem_cons_self (hsame ▸ he)
        rw [placeSource, hfind]
        refine bind_eq_ok.mpr ⟨peer, rfl, ?_⟩
        refine bind_eq_ok.mpr ⟨(), reject_eq_ok.mpr ?_, ?_⟩
        · rw [hdomain]
          simp only [not_or, not_not]
          exact ⟨hgood'.root, hgood'.byteLen, ⟨(), hgood'.commitment⟩, hfree, hnew d mem_cons_self⟩
        · rw [sourceRole, hrole, hdomain]
          rfl
      refine replay_cons.mpr ⟨_, hplace, (ih hnodup hrest ?_ ?_ ?_).trans (by simp)⟩
      · intro e he hmem
        rcases mem_cons.mp hmem with rfl | hmem
        · exact hdnew he
        · exact hnew e (mem_cons_of_mem _ he) hmem
      · intro node hmem
        rcases mem_cons.mp hmem with rfl | hmem
        · exact ⟨d, mem_cons_self, hd⟩
        · obtain ⟨e, he, hdomain'⟩ := hused node hmem
          exact ⟨e, mem_cons_of_mem _ he, hdomain'⟩
      · exact fun source' h => hgood source' (mem_cons_of_mem _ h)

/-! ## Parity and virtual roles -/

/-- **Planned parity holders with room, in new domains, are placed.** -/
lemma placeRequireds_eq (usedNodes : List NodeId) (capacity : Table NodeId U64)
    {nodes : List NodeId} {s : ChosenPeers} {chosen : List String} (hnodup : chosen.Nodup)
    (hchosen : nodes.map (domainOf peers) = chosen.map some) (hnew : ∀ d ∈ chosen, d ∉ s.1)
    (hfree : ∀ node ∈ nodes, node ∉ usedNodes)
    (hroom : ∀ node ∈ nodes, capacityOf capacity node ≠ 0) :
    ∃ holders, replay (placeRequired peers usedNodes (some capacity)) s nodes =
        .ok (chosen.reverse ++ s.1, s.2 ++ holders) ∧
      (holders.map fun peer => peer.member.nodeId) = nodes ∧
      (holders.map fun peer => peer.member.failureDomain) = chosen ∧ holders ⊆ peers := by
  induction nodes generalizing s chosen with
  | nil =>
    obtain rfl := map_eq_nil_iff.mp hchosen.symm
    exact ⟨[], replay_nil.mpr (by simp), rfl, rfl, nil_subset _⟩
  | cons node nodes ih =>
    cases chosen with
    | nil => cases hchosen
    | cons d chosen =>
      obtain ⟨hd, hrest⟩ := List.cons.inj hchosen
      obtain ⟨hdnew, hnodup⟩ := nodup_cons.mp hnodup
      obtain ⟨peer, hpeer, hfind, hnode, hdomain⟩ := find?_peer hids hd
      have hplace : placeRequired peers usedNodes (some capacity) s node =
          .ok (d :: s.1, s.2 ++ [peer]) := by
        rw [placeRequired, hfind]
        refine bind_eq_ok.mpr ⟨peer, rfl, ?_⟩
        refine bind_eq_ok.mpr ⟨(), reject_eq_ok.mpr ?_, ?_⟩
        · rw [hdomain]
          rintro (hused | ⟨c, hc, hzero⟩ | hold)
          · exact hfree node mem_cons_self hused
          · obtain rfl := Option.some.inj hc
            exact hroom node mem_cons_self hzero
          · exact hnew d mem_cons_self hold
        · rw [hdomain]
          rfl
      have hnew' : ∀ e ∈ chosen, e ∉ d :: s.1 := by
        intro e he hmem
        rcases mem_cons.mp hmem with rfl | hmem
        · exact hdnew he
        · exact hnew e (mem_cons_of_mem _ he) hmem
      obtain ⟨holders, hholders, hids', hdomains, hsub⟩ :=
        ih (s := (d :: s.1, s.2 ++ [peer])) hnodup hrest hnew'
          (fun n hn => hfree n (mem_cons_of_mem _ hn))
          (fun n hn => hroom n (mem_cons_of_mem _ hn))
      refine ⟨peer :: holders, ?_, ?_, ?_, ?_⟩
      · exact replay_cons.mpr ⟨_, hplace, hholders.trans (by simp)⟩
      · rw [map_cons, hids', hnode]
      · rw [map_cons, hdomains, hdomain]
      · exact cons_subset.mpr ⟨hpeer, hsub⟩

end

/-- The virtual roles take new domains, until there are enough or none is left. -/
lemma chooseVirtual_spec {count : ℕ} (parityNodes : List NodeId) (candidates : List GuildPeer)
    {s : ChosenPeers} (hle : s.2.length ≤ count) :
    ∃ picked, chooseVirtual count parityNodes s candidates =
        ((picked.map fun peer => peer.member.failureDomain).reverse ++ s.1, s.2 ++ picked) ∧
      picked ⊆ candidates ∧ (picked.map fun peer => peer.member.failureDomain).Nodup ∧
      (∀ peer ∈ picked, peer.member.failureDomain ∉ s.1) ∧ s.2.length + picked.length ≤ count ∧
      (s.2.length + picked.length = count ∨ ∀ peer ∈ candidates, peer.member.nodeId ∉ parityNodes →
        peer.member.failureDomain ∈
          (picked.map fun peer => peer.member.failureDomain).reverse ++ s.1) := by
  induction candidates generalizing s with
  | nil =>
    exact ⟨[], by simp [chooseVirtual], Subset.refl _, nodup_nil,
      fun _ h => (not_mem_nil h).elim, hle, .inr fun _ h => (not_mem_nil h).elim⟩
  | cons peer candidates ih =>
    rw [chooseVirtual]
    by_cases hfull : s.2.length = count
    · rw [if_pos hfull]
      exact ⟨[], by simp, nil_subset _, nodup_nil, fun _ h => (not_mem_nil h).elim, hle, .inl hfull⟩
    · rw [if_neg hfull]
      by_cases hnew : peer.member.nodeId ∉ parityNodes ∧ peer.member.failureDomain ∉ s.1
      · rw [if_pos hnew]
        have hle' : (s.2 ++ [peer]).length ≤ count := by
          rw [length_append, length_singleton]
          omega
        obtain ⟨picked, hpicked, hsub, hnodup, hfresh, hlen, hend⟩ :=
          ih (s := (peer.member.failureDomain :: s.1, s.2 ++ [peer])) hle'
        simp only [length_append, length_singleton] at hlen hend
        refine ⟨peer :: picked, hpicked.trans (by simp), ?_, ?_, ?_, ?_, ?_⟩
        · exact cons_subset.mpr
            ⟨mem_cons_self, fun p hp => mem_cons_of_mem _ (hsub hp)⟩
        · refine nodup_cons.mpr ⟨fun hmem => ?_, hnodup⟩
          obtain ⟨p, hp, hdomain⟩ := mem_map.mp hmem
          exact hfresh p hp (hdomain ▸ mem_cons_self)
        · intro p hp
          rcases mem_cons.mp hp with rfl | hp
          · exact hnew.2
          · exact fun hmem => hfresh p hp (mem_cons_of_mem _ hmem)
        · rw [length_cons]
          omega
        · rcases hend with hcount | hall
          · left
            rw [length_cons]
            omega
          · right
            intro p hp hparity
            rcases mem_cons.mp hp with rfl | hp
            · simp
            · have := hall p hp hparity
              simp only [mem_append, mem_reverse, mem_cons] at this
              simp only [map_cons, reverse_cons, mem_append, mem_reverse, mem_singleton]
              tauto
      · rw [if_neg hnew]
        obtain ⟨picked, hpicked, hsub, hnodup, hfresh, hlen, hend⟩ := ih hle
        refine ⟨picked, hpicked, fun p hp => mem_cons_of_mem _ (hsub hp), hnodup, hfresh, hlen,
          hend.imp_right fun hall p hp hparity => ?_⟩
        rcases mem_cons.mp hp with rfl | hp
        · refine mem_append_right _ ?_
          by_contra hold
          exact hnew ⟨hparity, hold⟩
        · exact hall p hp hparity

/-! ## One lane -/

/-- A roster whose lanes pass their checks. -/
structure LaneRoster (guildId : Bytes 32) (peers : List GuildPeer) : Prop where
  guild : guildId ≠ 0
  ids : DistinctNodes peers
  nodes : ∀ peer ∈ peers, peer.member.nodeId ≠ ⟨0⟩
  domains : ∀ peer ∈ peers,
    peer.member.failureDomain ≠ "" ∧ peer.member.failureDomain.utf8ByteSize ≤ 256

namespace VariableCodingLane

/-- The information roles that have a sector. -/
def sectorRoles (lane : VariableCodingLane) : List InformationRoleV2 :=
  lane.geometry.information.filter fun role => ¬ role.sector.virtualZero

/-- The nodes that store something for the lane. -/
def storageHolders (lane : VariableCodingLane) : List NodeId :=
  lane.sectorRoles.map InformationRoleV2.owner ++
    lane.geometry.parity.map ParityPlacementV2.holder

/-- A lane with its checks passed, where every role without a sector is a virtual zero on a peer. -/
structure WellBuilt (C : Crypto) (peers : List GuildPeer) (profile : CodingProfile)
    (lane : VariableCodingLane) : Prop where
  profile_eq : lane.geometry.profile = profile
  valid : lane.geometry.validate C = .ok ()
  width : lane.geometry.domains.length = profile.dataShards.val + profile.parityShards.val
  apart : lane.geometry.domains.Nodup
  zeros : ∀ role ∈ lane.geometry.information, role.sector.virtualZero →
    merkleZeroCommitment C profile.shardSize = .ok role.sector.commitment ∧
    (∃ peer ∈ peers, peer.member.nodeId = role.owner ∧
      peer.member.failureDomain = role.failureDomain) ∧
    role.failureDomain ∉ lane.sectorRoles.map InformationRoleV2.failureDomain ++
      lane.geometry.parity.map ParityPlacementV2.failureDomain

end VariableCodingLane

lemma exists_domain_of_mem {nodes : List NodeId} {chosen : List String}
    (hchosen : nodes.map (domainOf peers) = chosen.map some) {node : NodeId}
    (hnode : node ∈ nodes) : ∃ d ∈ chosen, domainOf peers node = some d := by
  have hmem : domainOf peers node ∈ chosen.map some := hchosen ▸ mem_map_of_mem hnode
  obtain ⟨d, hd, heq⟩ := mem_map.mp hmem
  exact ⟨d, hd, heq.symm⟩

lemma virtualSector_ne_zero (ordinal lane : ℕ) :
    virtualSector C guildId revisionId ordinal lane ≠ 0 := by
  rw [virtualSector]
  split
  · decide
  · assumption

lemma mem_laneCandidates {ordinal : ℕ} {usedNodes : List NodeId} {peer : GuildPeer} :
    peer ∈ laneCandidates C guildId revisionId peers ordinal usedNodes ↔
      peer ∈ peers ∧ peer.member.nodeId ∉ usedNodes := by
  rw [laneCandidates, mem_insertionSort, mem_filter, decide_eq_true_eq]

lemma exists_zeroCommitment (h : RosterProfile peers profile) :
    ∃ zero, merkleZeroCommitment C profile.shardSize = .ok zero := by
  have hsize : validateDataLen profile.shardSize.val = .ok () := by
    rw [h.shardSize]
    decide
  rw [merkleZeroCommitment, merkleZeroSubtreeRoot, hsize]
  exact ⟨_, rfl⟩

/-- The role of a virtual zero. -/
def virtualRole (C : Crypto) (guildId : Bytes 32) (revisionId : Uuid) (profile : CodingProfile)
    (ordinal : ℕ) (zero : MerkleCommitment) (entry : GuildPeer × ℕ) : InformationRoleV2 :=
  { owner := entry.1.member.nodeId
    failureDomain := entry.1.member.failureDomain
    sector := { id := virtualSector C guildId revisionId ordinal entry.2
                commitment := zero
                logicalLen := profile.shardSize
                virtualZero := true } }

/-- The roles of the planned parity holders. -/
def parityRoles (holders : List GuildPeer) : List ParityPlacementV2 :=
  holders.zipIdx.map fun entry =>
    { holder := entry.1.member.nodeId
      failureDomain := entry.1.member.failureDomain
      row := Fin.ofNat _ entry.2 }

lemma map_zipIdx {α β : Type} (f : α → β) (xs : List α) : (xs.zipIdx.map fun entry => f entry.1) =
    xs.map f := by
  have hfst := congrArg (List.map f) (zipIdx_map_fst 0 xs)
  rwa [map_map] at hfst

/-- **The virtual roles find domains.** -/
lemma exists_virtualPeers (hprofile : RosterProfile peers profile) (hids : DistinctNodes peers)
    {size : ℕ} {usedNodes parityNodes : List NodeId} {used : List String}
    (candidates : List GuildPeer)
    (hcandidates : ∀ {peer}, peer ∈ candidates ↔ peer ∈ peers ∧ peer.member.nodeId ∉ usedNodes)
    (hused : ∀ node ∈ usedNodes ++ parityNodes, ∃ d ∈ used, domainOf peers node = some d)
    (hlength : used.length = size + profile.parityShards.val)
    (hsize : size ≤ profile.dataShards.val) :
    ∃ virtual domains,
      chooseVirtual (profile.dataShards.val - size) parityNodes (used, []) candidates =
        (domains, virtual) ∧
      virtual.length = profile.dataShards.val - size ∧ virtual ⊆ peers ∧
      (virtual.map fun peer => peer.member.failureDomain).Nodup ∧
      ∀ peer ∈ virtual, peer.member.failureDomain ∉ used := by
  obtain ⟨virtual, hvirtual, hsub, hnodup, hfresh, hle, hend⟩ :=
    chooseVirtual_spec parityNodes candidates
      (s := (used, [])) (Nat.zero_le (profile.dataShards.val - size))
  simp only [length_nil, Nat.zero_add] at hle hend
  refine ⟨virtual, _, hvirtual, ?_, fun peer hpeer => (hcandidates.mp (hsub hpeer)).1, hnodup,
    hfresh⟩
  rcases hend with hcount | hall
  · exact hcount
  · -- otherwise every domain of the roster is used, and there are too many for that
    have hcover : rosterDomains peers ⊆
        ((virtual.map fun peer => peer.member.failureDomain).reverse ++ used).toFinset := by
      intro d hd
      obtain ⟨peer, hpeer, rfl⟩ := mem_rosterDomains.mp hd
      rw [mem_toFinset]
      by_cases hold : peer.member.nodeId ∈ usedNodes ++ parityNodes
      · obtain ⟨e, he, hdomain⟩ := hused _ hold
        have hsame : peer.member.failureDomain = e :=
          Option.some.inj ((domainOf_peer hids hpeer).symm.trans hdomain)
        exact mem_append_right _ (hsame ▸ he)
      · rw [mem_append, not_or] at hold
        exact hall peer (hcandidates.mpr ⟨hpeer, hold.1⟩) hold.2
    have hcard := (Finset.card_le_card hcover).trans (toFinset_card_le _)
    rw [length_append, length_reverse, length_map, hlength] at hcard
    have := hprofile.width
    omega

/-- The geometry of a lane. -/
def laneGeometry (C : Crypto) (guildId : Bytes 32) (revisionId : Uuid) (peers : List GuildPeer)
    (profile : CodingProfile) (ordinal : ℕ) (zero : MerkleCommitment)
    (sources : List VariableInformationInput) (virtual holders : List GuildPeer) :
    CodingPlanGeometry :=
  { formatVersion := 1
    guildId := guildId
    profile := profile
    information := sources.map (sourceRole peers) ++
      virtual.zipIdx.map (virtualRole C guildId revisionId profile ordinal zero)
    parity := parityRoles holders }

section Geometry

variable {ordinal : ℕ} {zero : MerkleCommitment} {sources : List VariableInformationInput}
  {virtual holders : List GuildPeer} {front back : List String}

lemma domains_parityRoles : (parityRoles holders).map ParityPlacementV2.failureDomain =
    holders.map fun peer => peer.member.failureDomain := by
  rw [parityRoles, map_map]
  exact map_zipIdx (fun peer : GuildPeer => peer.member.failureDomain) holders

lemma holders_parityRoles : (parityRoles holders).map ParityPlacementV2.holder =
    holders.map fun peer => peer.member.nodeId := by
  rw [parityRoles, map_map]
  exact map_zipIdx (fun peer : GuildPeer => peer.member.nodeId) holders

lemma sourceRole_planned (hroster : LaneRoster guildId peers) (hspec : RosterProfile peers profile)
    {source : VariableInformationInput} {d : String}
    (hdomain : domainOf peers source.owner = some d)
    (hgood : SourceGood profile source) (hid : source.sector.id ≠ 0)
    (hlen : source.sector.logicalLen = profile.shardSize) :
    (sourceRole peers source).Planned C profile := by
  obtain ⟨peer, hpeer, hnode, hname⟩ := (domainOf_eq_some hroster.ids).mp hdomain
  refine ⟨hgood.commitment, ?_, ?_, hid, hgood.byteLen, hlen.le, ?_⟩
  · rw [sourceRole, ← hnode]
    exact hroster.nodes peer hpeer
  · rw [sourceRole, hdomain, ← hname]
    exact hroster.domains peer hpeer
  · rw [sourceRole, if_neg Bool.false_ne_true, hlen]
    intro hzero
    have hsize := hspec.shardSize
    rw [show profile.shardSize = 0 from hzero] at hsize
    cases hsize

lemma zeroCommitment_valid
    (hzero : merkleZeroCommitment C profile.shardSize = .ok zero) (hroot : zero.root ≠ 0) :
    zero.validate = .ok () ∧ zero.byteLen = profile.shardSize := by
  obtain ⟨root, hsubtree, hzero⟩ := bind_eq_ok.mp hzero
  obtain rfl := pure_eq_ok.mp hzero
  obtain ⟨_, hlen, -⟩ := bind_eq_ok.mp hsubtree
  refine ⟨bind_eq_ok.mpr ⟨(), reject_eq_ok.mpr ?_, hlen⟩, rfl⟩
  rintro (h | h | h)
  · exact h rfl
  · exact h rfl
  · exact hroot h

lemma virtualRole_planned (hroster : LaneRoster guildId peers)
    (hzero : merkleZeroCommitment C profile.shardSize = .ok zero) (hroot : zero.root ≠ 0)
    {entry : GuildPeer × ℕ} (hpeer : entry.1 ∈ peers) :
    (virtualRole C guildId revisionId profile ordinal zero entry).Planned C profile := by
  obtain ⟨hvalid, hlen⟩ := zeroCommitment_valid hzero hroot
  refine ⟨hvalid, hroster.nodes _ hpeer, hroster.domains _ hpeer, virtualSector_ne_zero _ _, hlen,
    le_rfl, ?_⟩
  rw [virtualRole, if_pos rfl]
  exact ⟨rfl, hzero⟩

lemma parityRole_planned (hroster : LaneRoster guildId peers) (hsub : holders ⊆ peers)
    {entry : ParityPlacementV2 × ℕ} (hentry : entry ∈ (parityRoles holders).zipIdx) :
    entry.1.Planned entry.2 := by
  obtain ⟨placement, row⟩ := entry
  rw [mem_zipIdx_iff_getElem?, parityRoles, getElem?_map, getElem?_zipIdx] at hentry
  obtain ⟨⟨peer, i⟩, hpeer, rfl⟩ := Option.map_eq_some_iff.mp hentry
  obtain ⟨peer', hpeer', heq⟩ := Option.map_eq_some_iff.mp hpeer
  obtain ⟨rfl, hindex⟩ := Prod.mk.inj heq
  have hmem := hsub (mem_of_getElem? hpeer')
  rw [Nat.zero_add] at hindex
  refine ⟨hroster.nodes _ hmem, ?_, hroster.domains _ hmem⟩
  rw [← hindex, Fin.val_ofNat]

lemma sectorRoles_laneGeometry (roots : List (Bytes 32))
    (packed : Table (Bytes 32) PackedSectorDescriptor) :
    VariableCodingLane.sectorRoles
      ⟨laneGeometry C guildId revisionId peers profile ordinal zero sources virtual holders, roots,
        packed⟩ = sources.map (sourceRole peers) := by
  have hreal : ((sources.map (sourceRole peers)).filter fun role => ¬ role.sector.virtualZero) =
      sources.map (sourceRole peers) := by
    refine filter_eq_self.mpr fun role hrole => ?_
    obtain ⟨source, -, rfl⟩ := mem_map.mp hrole
    rfl
  have hvirtual :
      ((virtual.zipIdx.map (virtualRole C guildId revisionId profile ordinal zero)).filter
      fun role => ¬ role.sector.virtualZero) = [] := by
    refine filter_eq_nil_iff.mpr fun role hrole => ?_
    obtain ⟨entry, -, rfl⟩ := mem_map.mp hrole
    simp [virtualRole]
  rw [VariableCodingLane.sectorRoles, laneGeometry, filter_append, hreal, hvirtual, append_nil]

variable (hfront : (sources.map fun source => domainOf peers source.owner) = front.map some)

include hfront

lemma domains_sourceRoles :
    (sources.map (sourceRole peers)).map InformationRoleV2.failureDomain = front := by
  have hgetD := congrArg (List.map fun d => d.getD "") hfront
  rw [map_map, map_map] at hgetD
  rw [map_map]
  exact hgetD.trans (map_id front)

variable (hback : (holders.map fun peer => peer.member.failureDomain) = back)

include hback

lemma domains_laneGeometry :
    (laneGeometry C guildId revisionId peers profile ordinal zero sources virtual holders).domains =
      front ++ (virtual.map fun peer => peer.member.failureDomain) ++ back := by
  rw [CodingPlanGeometry.domains, laneGeometry, map_append, domains_sourceRoles hfront,
    domains_parityRoles, hback, map_map]
  exact congrArg (fun names => front ++ names ++ back)
    (map_zipIdx (fun peer : GuildPeer => peer.member.failureDomain) virtual)

/-- **The geometry of a lane passes its check.** -/
lemma laneGeometry_valid (hroster : LaneRoster guildId peers) (hspec : RosterProfile peers profile)
    (hzero : merkleZeroCommitment C profile.shardSize = .ok zero) (hroot : zero.root ≠ 0)
    (hgood : ∀ source ∈ sources, SourceGood profile source ∧ source.sector.id ≠ 0 ∧
      source.sector.logicalLen = profile.shardSize) (hvirtual : virtual ⊆ peers)
    (hholders : holders ⊆ peers) (hdata : sources.length + virtual.length = profile.dataShards.val)
    (hparity : holders.length = profile.parityShards.val)
    (hnodup : (front ++ (virtual.map fun peer => peer.member.failureDomain) ++ back).Nodup) :
    (laneGeometry C guildId revisionId peers profile ordinal zero sources virtual holders).Valid C
    := by
  refine ⟨hspec.valid, rfl, hroster.guild, ?_, ?_, fun role hrole => ?_, fun entry hentry => ?_, ?_⟩
  · rw [laneGeometry, length_append, length_map, length_map, length_zipIdx, hdata]
  · rw [laneGeometry, parityRoles, length_map, length_zipIdx, hparity]
  · rcases mem_append.mp hrole with hrole | hrole
    · obtain ⟨source, hsource, rfl⟩ := mem_map.mp hrole
      obtain ⟨hgood, hid, hlen⟩ := hgood source hsource
      have hmem : domainOf peers source.owner ∈ front.map some := by
        rw [← hfront]
        exact mem_map_of_mem (f := fun source => domainOf peers source.owner) hsource
      obtain ⟨d, -, hd⟩ := mem_map.mp hmem
      exact sourceRole_planned hroster hspec hd.symm hgood hid hlen
    · obtain ⟨entry, hentry, rfl⟩ := mem_map.mp hrole
      have hpeer : entry.1 ∈ virtual := fst_mem_of_mem_zipIdx hentry
      exact virtualRole_planned hroster hzero hroot (hvirtual hpeer)
  · exact parityRole_planned hroster hholders hentry
  · rw [domains_laneGeometry hfront hback]
    exact hnodup

lemma laneGeometry_wellBuilt (hzero : merkleZeroCommitment C profile.shardSize = .ok zero)
    (hvirtual : virtual ⊆ peers)
    (hvalid : (laneGeometry C guildId revisionId peers profile ordinal zero sources virtual
      holders).Valid C) (roots : List (Bytes 32))
    (packed : Table (Bytes 32) PackedSectorDescriptor) :
    VariableCodingLane.WellBuilt C peers profile
      ⟨laneGeometry C guildId revisionId peers profile ordinal zero sources virtual holders, roots,
        packed⟩ := by
  refine ⟨rfl, CodingPlanGeometry.validate_eq_ok.mpr hvalid, ?_, hvalid.domains,
    fun role hrole hflag => ?_⟩
  · rw [CodingPlanGeometry.domains, length_append, length_map, length_map,
      hvalid.information_length, hvalid.parity_length]
    rfl
  · rcases mem_append.mp hrole with hrole | hrole
    · obtain ⟨source, -, rfl⟩ := mem_map.mp hrole
      cases hflag
    · obtain ⟨entry, hentry, rfl⟩ := mem_map.mp hrole
      have hpeer : entry.1 ∈ virtual := fst_mem_of_mem_zipIdx hentry
      refine ⟨hzero, ⟨entry.1, hvirtual hpeer, rfl, rfl⟩, ?_⟩
      have hnodup := hvalid.domains
      rw [domains_laneGeometry hfront hback, append_assoc] at hnodup
      obtain ⟨-, hrest, hapart⟩ := nodup_append.mp hnodup
      obtain ⟨-, -, hapart'⟩ := nodup_append.mp hrest
      have hmem : entry.1.member.failureDomain ∈
          virtual.map fun peer => peer.member.failureDomain := mem_map_of_mem hpeer
      rw [sectorRoles_laneGeometry, domains_sourceRoles hfront, laneGeometry, domains_parityRoles,
        hback, mem_append]
      rintro (hold | hold)
      · exact hapart _ hold _ (mem_append_left _ hmem) rfl
      · exact hapart' _ hmem _ hold rfl

end Geometry

/-! ## The builder's account -/

/-- A holder with room gives up one shard. -/
lemma debitHolder_eq (missing exhausted : CodingLaneError) {t : Table NodeId U64} {holder : NodeId}
    (hroom : 0 < roomIn t holder) :
    ∃ t', debitHolder missing exhausted t holder = .ok t' ∧ Debits t [holder] t' := by
  cases hget : t.get holder with
  | none =>
    rw [roomIn, capacityOf, hget] at hroom
    exact absurd hroom (lt_irrefl _)
  | some available =>
    rw [roomIn, capacityOf, hget, Option.getD_some] at hroom
    have hbound : available.val - 1 < 2 ^ 64 := by omega
    have hleft : checkedSub available 1 = some ⟨available.val - 1, hbound⟩ :=
      checkedSub_eq_some.mpr ⟨hroom, rfl⟩
    refine ⟨t.put holder ⟨available.val - 1, hbound⟩, ?_, .put hget (Nat.sub_add_cancel hroom).symm⟩
    exact bind_eq_ok.mpr ⟨available, okOr_eq_ok.mpr hget,
      bind_eq_ok.mpr ⟨_, okOr_eq_ok.mpr hleft, rfl⟩⟩

/-- **Holders with room for all their uses give them up.** -/
lemma debitHolders_eq (missing exhausted : CodingLaneError) (holders : List NodeId)
    {t : Table NodeId U64} (hroom : ∀ node, holders.count node ≤ roomIn t node) :
    ∃ t', replay (debitHolder missing exhausted) t holders = .ok t' ∧ Debits t holders t' := by
  induction holders generalizing t with
  | nil => exact ⟨t, replay_nil.mpr rfl, .refl t⟩
  | cons holder holders ih =>
    have hpos : 0 < roomIn t holder := by
      have := hroom holder
      rw [count_cons_self] at this
      omega
    obtain ⟨t₁, hdebit, hone⟩ := debitHolder_eq missing exhausted hpos
    have hrest : ∀ node, holders.count node ≤ roomIn t₁ node := by
      intro node
      have hbefore := hroom node
      have hstep := hone.room node
      rw [count_cons] at hbefore
      rw [count_singleton] at hstep
      omega
    obtain ⟨t', hreplay, hdebits⟩ := ih hrest
    exact ⟨t', replay_cons.mpr ⟨t₁, hdebit, hreplay⟩, hone.trans hdebits⟩

/-! ## Packed lanes -/

/-- A packed sector whose role passes its checks. -/
structure PackedSectorDescriptor.Codable (descriptor : PackedSectorDescriptor) : Prop where
  id : descriptor.id ≠ 0
  flatRoot : descriptor.flatRoot ≠ 0
  commitment : descriptor.commitment.validate = .ok ()
  byteLen : descriptor.commitment.byteLen.val = v1SectorSize

/-- The sector as an information role names it. -/
def PackedSectorDescriptor.reference (descriptor : PackedSectorDescriptor) : RangeSectorRef :=
  { id := descriptor.id
    commitment := descriptor.commitment
    logicalLen := descriptor.commitment.byteLen
    virtualZero := false }

/-- The source of a packed sector on its holder. -/
def laneSource (descriptor : PackedSectorDescriptor) (owner : NodeId) : VariableInformationInput :=
  { owner := owner
    sector := { id := descriptor.id
                root := descriptor.flatRoot
                logicalLen := descriptor.commitment.byteLen }
    commitment := descriptor.commitment }

lemma mapM_packedReference {laneSectors : List PackedSectorDescriptor}
    (h : ∀ descriptor ∈ laneSectors, descriptor.commitment.byteLen = profile.shardSize) :
    laneSectors.mapM (packedReference profile) =
      .ok (laneSectors.map fun descriptor => (laneSource descriptor ⟨0⟩).sector) := by
  induction laneSectors with
  | nil => rfl
  | cons descriptor laneSectors ih =>
    have hone : packedReference profile descriptor = .ok (laneSource descriptor ⟨0⟩).sector :=
      bind_eq_ok.mpr ⟨(), reject_eq_ok.mpr (not_not.mpr (h descriptor mem_cons_self)), rfl⟩
    rw [mapM_cons, hone, ok_bind, ih fun d hd => h d (mem_cons_of_mem _ hd)]
    rfl

lemma laneSources_eq (laneSectors : List PackedSectorDescriptor) (owners : List NodeId) :
    ((((laneSectors.map fun descriptor => (laneSource descriptor ⟨0⟩).sector).zip owners).zip
      laneSectors).map fun entry =>
        (⟨entry.1.2, entry.1.1, entry.2.commitment⟩ : VariableInformationInput)) =
      List.zipWith laneSource laneSectors owners := by
  induction laneSectors generalizing owners with
  | nil => rfl
  | cons descriptor laneSectors ih =>
    cases owners with
    | nil => rfl
    | cons owner owners =>
      simp only [map_cons, zip_cons_cons, zipWith_cons_cons, ih]
      rfl

section

variable {α β γ δ : Type} {f : α → β → γ} {g : γ → δ} {xs : List α} {ys : List β}
  (hlen : xs.length = ys.length)

include hlen

lemma map_zipWith_left {h : α → δ} (hf : ∀ a b, g (f a b) = h a) :
    (List.zipWith f xs ys).map g = xs.map h := by
  induction xs generalizing ys with
  | nil => rfl
  | cons x xs ih =>
    cases ys with
    | nil => cases hlen
    | cons y ys => rw [zipWith_cons_cons, map_cons, hf, ih (Nat.succ.inj hlen), map_cons]

lemma map_zipWith_right {h : β → δ} (hf : ∀ a b, g (f a b) = h b) :
    (List.zipWith f xs ys).map g = ys.map h := by
  rw [zipWith_comm]
  exact map_zipWith_left hlen.symm fun b a => hf a b

end

/-- What a lane of the builder is. -/
structure RealisedLane (C : Crypto) (peers : List GuildPeer) (profile : CodingProfile)
    (laneSectors : List PackedSectorDescriptor) (placement : PackedLanePlacement)
    (lane : VariableCodingLane) : Prop where
  wellBuilt : lane.WellBuilt C peers profile
  sectors : (lane.sectorRoles.map InformationRoleV2.sector) =
    laneSectors.map PackedSectorDescriptor.reference
  holders : lane.storageHolders = placement.holders

section

variable (hroster : LaneRoster guildId peers) (hprofile : variableCodingProfile peers = .ok profile)
  (revisionId : Uuid) (ordinal : ℕ) {zero : MerkleCommitment}
  (hzero : merkleZeroCommitment C profile.shardSize = .ok zero) (hroot : zero.root ≠ 0)

include hroster hprofile hzero hroot

/-- **A lane of sources and parity holders in different domains is built.** -/
lemma variableCodingLane_eq (sources : List VariableInformationInput) {parity : List NodeId}
    {capacity : Table NodeId U64} {front back : List String} (hsome : sources ≠ [])
    (hsize : sources.length ≤ profile.dataShards.val)
    (hwidth : parity.length = profile.parityShards.val) (hnodup : (front ++ back).Nodup)
    (hfront : (sources.map VariableInformationInput.owner).map (domainOf peers) = front.map some)
    (hback : parity.map (domainOf peers) = back.map some)
    (hgood : ∀ source ∈ sources, SourceGood profile source ∧ source.sector.id ≠ 0 ∧
      source.sector.logicalLen = profile.shardSize)
    (hroom : ∀ node ∈ parity, capacityOf capacity node ≠ 0) :
    ∃ lane, variableCodingLaneWithCapacity C guildId revisionId peers ordinal sources
        (some capacity) (some parity) = .ok lane ∧
      (∀ packed, VariableCodingLane.WellBuilt C peers profile
        { lane with packedInformation := packed }) ∧
      lane.sectorRoles = sources.map (sourceRole peers) ∧
      lane.geometry.parity.map ParityPlacementV2.holder = parity := by
  have hspec := rosterProfile_of_ok hprofile
  obtain ⟨hfrontNodup, hbackNodup, hapart⟩ := nodup_append.mp hnodup
  have hsources : (sources.map fun source => domainOf peers source.owner) = front.map some := by
    rw [← hfront, map_map]
    rfl
  have hplaced := placeSources_eq (s := ⟨[], [], [], []⟩) hroster.ids hfrontNodup hsources
    (fun _ _ => not_mem_nil) (fun _ h => (not_mem_nil h).elim) fun source h => (hgood source h).1
  simp only [append_nil, nil_append] at hplaced
  have howners : ∀ node ∈ (sources.map VariableInformationInput.owner).reverse,
      ∃ d ∈ front, domainOf peers node = some d := fun node hnode =>
    exists_domain_of_mem hfront (mem_reverse.mp hnode)
  obtain ⟨holders, hholders, hholderIds, hholderDomains, hholdersSub⟩ :=
    placeRequireds_eq (s := (front.reverse, [])) hroster.ids
      (sources.map VariableInformationInput.owner).reverse capacity hbackNodup hback
      (fun d hd hmem => hapart d (mem_reverse.mp hmem) d hd rfl)
      (fun node hnode hold => by
        obtain ⟨d, hd, heq⟩ := exists_domain_of_mem hback hnode
        obtain ⟨e, he, heq'⟩ := howners node hold
        exact hapart e he d hd (Option.some.inj (heq'.symm.trans heq)))
      hroom
  have hused : ∀ node ∈ (sources.map VariableInformationInput.owner).reverse ++ parity,
      ∃ d ∈ back.reverse ++ front.reverse, domainOf peers node = some d := by
    intro node hnode
    rcases mem_append.mp hnode with hnode | hnode
    · obtain ⟨d, hd, heq⟩ := howners node hnode
      exact ⟨d, mem_append_right _ (mem_reverse.mpr hd), heq⟩
    · obtain ⟨d, hd, heq⟩ := exists_domain_of_mem hback hnode
      exact ⟨d, mem_append_left _ (mem_reverse.mpr hd), heq⟩
  have hlength : (back.reverse ++ front.reverse).length =
      sources.length + profile.parityShards.val := by
    have hf := congrArg List.length hfront
    have hb := congrArg List.length hback
    simp only [length_map] at hf hb
    rw [length_append, length_reverse, length_reverse, ← hf, ← hb, hwidth, Nat.add_comm]
  obtain ⟨virtual, taken, hvirtual, hcount, hvirtualSub, hvirtualNodup, hvirtualNew⟩ :=
    exists_virtualPeers hspec hroster.ids (laneCandidates C guildId revisionId peers ordinal
      (sources.map VariableInformationInput.owner).reverse) mem_laneCandidates hused hlength hsize
  have hall : (front ++ (virtual.map fun peer => peer.member.failureDomain) ++ back).Nodup := by
    have hnew : ∀ d ∈ virtual.map fun peer => peer.member.failureDomain, d ∉ front ∧ d ∉ back := by
      intro d hd
      obtain ⟨peer, hpeer, rfl⟩ := mem_map.mp hd
      have hfresh := hvirtualNew peer hpeer
      rw [mem_append, mem_reverse, mem_reverse, not_or] at hfresh
      exact ⟨hfresh.2, hfresh.1⟩
    refine nodup_append.mpr ⟨nodup_append.mpr ⟨hfrontNodup, hvirtualNodup, ?_⟩, hbackNodup, ?_⟩
    · rintro a ha b hb rfl
      exact (hnew a hb).1 ha
    · rintro a ha b hb rfl
      rcases mem_append.mp ha with ha | ha
      · exact hapart a ha a hb rfl
      · exact (hnew a ha).2 hb
  have hparityLength : holders.length = profile.parityShards.val := by
    rw [← hwidth, ← hholderIds, length_map]
  have hvalid : (laneGeometry C guildId revisionId peers profile ordinal zero sources virtual
      holders).Valid C :=
    laneGeometry_valid hsources hholderDomains hroster hspec hzero hroot hgood hvirtualSub
      hholdersSub (by omega) hparityLength hall
  refine ⟨⟨laneGeometry C guildId revisionId peers profile ordinal zero sources virtual holders,
    (sources.map fun source => source.sector.root) ++ virtual.map fun _ => 0, .empty⟩, ?_,
    fun packed => laneGeometry_wellBuilt hsources hholderDomains hzero hvirtualSub hvalid _ _,
    sectorRoles_laneGeometry _ _, holders_parityRoles.trans hholderIds⟩
  have hparityPeers : parityPeers peers (sources.map VariableInformationInput.owner).reverse
      front.reverse (laneCandidates C guildId revisionId peers ordinal
        (sources.map VariableInformationInput.owner).reverse) (some capacity) (some parity)
      profile.parityShards.val = .ok (back.reverse ++ front.reverse, holders) :=
    bind_eq_ok.mpr ⟨(), reject_eq_ok.mpr (not_not.mpr hwidth), hholders⟩
  rw [variableCodingLaneWithCapacity, hprofile, ok_bind]
  refine bind_eq_ok.mpr ⟨(), reject_eq_ok.mpr (not_or.mpr ⟨hsome, not_lt.mpr hsize⟩), ?_⟩
  refine bind_eq_ok.mpr ⟨zero, mapErr_eq_ok.mpr hzero, ?_⟩
  refine bind_eq_ok.mpr ⟨_, hplaced, ?_⟩
  refine bind_eq_ok.mpr ⟨_, hparityPeers, ?_⟩
  refine bind_eq_ok.mpr ⟨(), reject_eq_ok.mpr (not_lt.mpr hparityLength.ge), ?_⟩
  dsimp only
  rw [length_map, hholderIds, hvirtual]
  refine bind_eq_ok.mpr ⟨(), reject_eq_ok.mpr (not_lt.mpr hcount.ge), ?_⟩
  refine bind_eq_ok.mpr ⟨(), mapErr_eq_ok.mpr (CodingPlanGeometry.validate_eq_ok.mpr hvalid), ?_⟩
  rfl

/-- **A planned lane is built**, and debits what the plan debits. -/
lemma buildPackedLane_eq {laneSectors : List PackedSectorDescriptor}
    {placement : PackedLanePlacement} {t t' : Table NodeId U64} {lanes : ℕ}
    {size parityShards : U64} (hstep : LaneStep peers lanes parityShards size t placement t')
    (hparity : parityShards.val = profile.parityShards.val)
    (hlength : laneSectors.length = size.val) (hsome : laneSectors ≠ [])
    (hsize : laneSectors.length ≤ profile.dataShards.val)
    (hgood : ∀ descriptor ∈ laneSectors, descriptor.Codable) :
    ∃ lane, buildPackedLane C guildId revisionId peers profile ordinal t laneSectors placement =
        .ok (lane, t') ∧ RealisedLane C peers profile laneSectors placement lane := by
  have hspec := rosterProfile_of_ok hprofile
  have hbytes : ∀ descriptor ∈ laneSectors, descriptor.commitment.byteLen = profile.shardSize :=
    fun descriptor hd => Fin.ext ((hgood descriptor hd).byteLen.trans hspec.shardSize.symm)
  have hlen : laneSectors.length = placement.information.length := by
    rw [hlength, hstep.information]
  have howners : (List.zipWith laneSource laneSectors placement.information).map
      VariableInformationInput.owner = placement.information :=
    (map_zipWith_right (f := laneSource) (g := VariableInformationInput.owner) (h := id)
      hlen fun _ _ => rfl).trans (map_id _)
  have hsector : ∀ source ∈ List.zipWith laneSource laneSectors placement.information,
      SourceGood profile source ∧ source.sector.id ≠ 0 ∧
        source.sector.logicalLen = profile.shardSize := by
    intro source hsource
    rw [← map_uncurry_zip_eq_zipWith] at hsource
    obtain ⟨entry, hentry, rfl⟩ := mem_map.mp hsource
    have hmem : entry.1 ∈ laneSectors := (of_mem_zip hentry).1
    have hcodable := hgood entry.1 hmem
    exact ⟨⟨hcodable.flatRoot, hbytes entry.1 hmem, hcodable.commitment⟩, hcodable.id,
      hbytes entry.1 hmem⟩
  -- the domains of the plan, those of the information holders first
  obtain ⟨chosen, hnodup, hchosen, -⟩ := hstep.domains
  rw [PackedLanePlacement.holders, map_append] at hchosen
  obtain ⟨front, back, rfl, hfront, hback⟩ := map_eq_append_iff.mp hchosen.symm
  have hdebits := hstep.debits
  rw [PackedLanePlacement.holders] at hdebits
  have hroom : ∀ node ∈ placement.parity, capacityOf t node ≠ 0 := by
    intro node hnode hzero'
    have hcount := hdebits.room node
    have hpos : 0 < (placement.information ++ placement.parity).count node :=
      count_pos_iff.mpr (mem_append_right _ hnode)
    rw [roomIn, hzero', Fin.val_zero] at hcount
    omega
  obtain ⟨lane, hlane, hbuilt, hroles, hholders⟩ :=
    variableCodingLane_eq hroster hprofile revisionId ordinal hzero hroot
      (List.zipWith laneSource laneSectors placement.information) (by
        intro hnil
        have := congrArg List.length hnil
        rw [length_zipWith, ← hlen, Nat.min_self] at this
        exact hsome (length_eq_zero_iff.mp this))
      (by rw [length_zipWith, ← hlen, Nat.min_self]; exact hsize)
      (by rw [hstep.parity, hparity]) hnodup (by rw [howners, hfront]) hback.symm hsector hroom
  obtain ⟨t₁, hinformation, hdebit₁⟩ := debitHolders_eq .noInformationCapacity
    .informationCapacityExhausted placement.information (t := t) (fun node => by
      rw [hdebits.room node, count_append]
      omega)
  obtain ⟨t₂, hrest, hdebit₂⟩ := debitHolders_eq .noParityCapacity .parityCapacityExhausted
    placement.parity (t := t₁) (fun node => by
      have hall := hdebits.room node
      have hfirst := hdebit₁.room node
      rw [count_append] at hall
      omega)
  have hleft : t₂ = t' := (hdebit₁.trans hdebit₂).unique hdebits
  have hsame : VariableCodingLane.sectorRoles
      { lane with packedInformation := packedInformation laneSectors } = lane.sectorRoles := rfl
  refine ⟨{ lane with packedInformation := packedInformation laneSectors },
    bind_eq_ok.mpr ⟨_, mapM_packedReference hbytes, ?_⟩, hbuilt _, ?_, ?_⟩
  · dsimp only
    rw [laneSources_eq]
    refine bind_eq_ok.mpr ⟨lane, hlane, bind_eq_ok.mpr ⟨t₁, hinformation, ?_⟩⟩
    rw [hholders]
    exact bind_eq_ok.mpr ⟨t₂, hrest, by rw [hleft]; rfl⟩
  · rw [hsame, hroles, map_map]
    exact map_zipWith_left (f := laneSource) (g := InformationRoleV2.sector ∘ sourceRole peers)
      hlen fun _ _ => rfl
  · rw [VariableCodingLane.storageHolders, hsame, hroles, map_map, PackedLanePlacement.holders]
    exact congrArg₂ (· ++ ·) howners hholders

/-- **Planned lanes are built**, one after another. -/
lemma buildPackedLanes_eq {laneLists : List (List PackedSectorDescriptor)} {sizes : List U64}
    {placements : List PackedLanePlacement} {t t' : Table NodeId U64} {parityShards : U64}
    (hrun : LaneRun peers parityShards t sizes placements t')
    (hparity : parityShards.val = profile.parityShards.val)
    (hlengths : laneLists.map List.length = sizes.map Fin.val)
    (hlists : ∀ laneSectors ∈ laneLists, laneSectors ≠ [] ∧
      laneSectors.length ≤ profile.dataShards.val ∧
      ∀ descriptor ∈ laneSectors, descriptor.Codable) :
    ∃ lanes, buildPackedLanes C guildId revisionId peers profile ordinal t
        (laneLists.zip placements) = .ok (lanes, t') ∧
      (∀ lane ∈ lanes, lane.WellBuilt C peers profile) ∧
      (lanes.flatMap fun lane => lane.sectorRoles.map InformationRoleV2.sector) =
        laneLists.flatten.map PackedSectorDescriptor.reference ∧
      lanes.map VariableCodingLane.storageHolders = placements.map PackedLanePlacement.holders := by
  induction hrun generalizing ordinal laneLists with
  | nil t =>
    obtain rfl := map_eq_nil_iff.mp hlengths
    exact ⟨[], rfl, fun _ h => (not_mem_nil h).elim, rfl, rfl⟩
  | @cons t t₁ t' size sizes count placement placements step rest ih =>
    cases laneLists with
    | nil => cases hlengths
    | cons laneSectors laneLists =>
      obtain ⟨hlength, hlengths⟩ := List.cons.inj hlengths
      obtain ⟨hsome, hsize, hgood⟩ := hlists laneSectors mem_cons_self
      obtain ⟨lane, hlane, hrealised⟩ :=
        buildPackedLane_eq hroster hprofile revisionId ordinal hzero hroot step hparity
          hlength hsome hsize hgood
      obtain ⟨lanes, hlanes, hbuilt, hsectors, hholders⟩ :=
        ih (ordinal + 1) hlengths fun l hl => hlists l (mem_cons_of_mem _ hl)
      refine ⟨lane :: lanes, ?_, ?_, ?_, ?_⟩
      · rw [zip_cons_cons, buildPackedLanes, hlane, ok_bind]
        dsimp only
        rw [hlanes]
        rfl
      · exact forall_mem_cons.mpr ⟨hrealised.wellBuilt, hbuilt⟩
      · rw [flatMap_cons, hsectors, hrealised.sectors, flatten_cons, map_append]
      · rw [map_cons, hholders, hrealised.holders, map_cons]

end

/-! ## The construction -/

/-- The zero shard of the sector size has a commitment whose root is not the zero digest. -/
def ZeroRootNonzero (C : Crypto) : Prop :=
  ∀ zero, merkleZeroCommitment C (Fin.ofNat _ v1SectorSize) = .ok zero → zero.root ≠ 0

/-- **Lane construction realises the plan.**  Every sector is one information role of one lane,
every lane passes its check with the width of the profile and virtual zeros on domains of their own,
and the capacity map gives up one shard for each holder of a sector or of parity.  The guild and the
nodes have ids other than zero, which geometries refuse. -/
theorem lane_construction_realises_plan (C : Crypto) (guildId : Bytes 32) (revisionId : Uuid)
    (peers : List GuildPeer) (sectors : List PackedSectorDescriptor) (capacity : Table NodeId U64)
    (profile : CodingProfile) (placements : List PackedLanePlacement)
    (hhash : ZeroRootNonzero C) (hroster : LaneRoster guildId peers)
    (hids : (sectors.map PackedSectorDescriptor.id).Nodup)
    (hsectors : ∀ sector ∈ sectors, sector.Codable)
    (hprofile : variableCodingProfile peers = .ok profile)
    (hplan : planPackedLanePlacements C guildId peers (packedLaneSizes profile sectors) capacity
      (Fin.ofNat _ profile.parityShards.val) = .ok placements) :
    ∃ lanes capacity', buildPackedCodingLanes C guildId revisionId peers sectors capacity =
        .ok (lanes, capacity') ∧
      (lanes.flatMap fun lane => lane.sectorRoles.map InformationRoleV2.sector).Perm
        (sectors.map PackedSectorDescriptor.reference) ∧
      (lanes.flatMap fun lane => lane.sectorRoles.map fun role => role.sector.id).Nodup ∧
      (∀ lane ∈ lanes, lane.WellBuilt C peers profile) ∧
      lanes.map VariableCodingLane.storageHolders = placements.map PackedLanePlacement.holders ∧
      Debits capacity (lanes.flatMap VariableCodingLane.storageHolders) capacity' := by
  have hspec := rosterProfile_of_ok hprofile
  obtain ⟨zero, hzero⟩ := exists_zeroCommitment (C := C) hspec
  have hshard : profile.shardSize = Fin.ofNat _ v1SectorSize := Fin.ext hspec.shardSize
  have hroot : zero.root ≠ 0 := hhash zero (hshard ▸ hzero)
  have hsort := perm_insertionSort
    (fun a b : PackedSectorDescriptor => a.sectorIndex ≤ b.sectorIndex) sectors
  have hflat : (packedLaneSectors profile sectors).flatten.Perm sectors := by
    rw [packedLaneSectors, flatten_chunks hspec.data_pos]
    exact hsort
  have hbound : profile.dataShards.val < 2 ^ 64 :=
    profile.dataShards.isLt.trans (Nat.pow_lt_pow_right Nat.one_lt_two (by norm_num))
  have hlists : ∀ laneSectors ∈ packedLaneSectors profile sectors, laneSectors ≠ [] ∧
      laneSectors.length ≤ profile.dataShards.val ∧
        ∀ descriptor ∈ laneSectors, descriptor.Codable := by
    intro laneSectors hlane
    obtain ⟨hsome, hsize⟩ := ne_nil_of_mem_chunks hspec.data_pos hlane
    refine ⟨hsome, hsize, fun descriptor hd => ?_⟩
    exact hsectors descriptor (hflat.mem_iff.mp (mem_flatten_of_mem hlane hd))
  have hlengths : (packedLaneSectors profile sectors).map List.length =
      (packedLaneSizes profile sectors).map Fin.val := by
    rw [packedLaneSizes, map_map]
    refine map_congr_left fun lane hlane => ?_
    have hle := (hlists lane hlane).2.1
    exact (Nat.mod_eq_of_lt (hle.trans_lt hbound)).symm
  have hparity : (Fin.ofNat (2 ^ 64) profile.parityShards.val).val = profile.parityShards.val :=
    Nat.mod_eq_of_lt
      (profile.parityShards.isLt.trans (Nat.pow_lt_pow_right Nat.one_lt_two (by norm_num)))
  obtain ⟨capacity', hrun⟩ := LaneRun.of_planLanes hroster.ids previousSound_none hplan
  obtain ⟨lanes, hlanes, hbuilt, hroles, hholders⟩ :=
    buildPackedLanes_eq hroster hprofile revisionId 0 hzero hroot hrun hparity hlengths hlists
  have hperm : (lanes.flatMap fun lane => lane.sectorRoles.map InformationRoleV2.sector).Perm
      (sectors.map PackedSectorDescriptor.reference) := hroles ▸ hflat.map _
  refine ⟨lanes, capacity', ?_, hperm, ?_, hbuilt, hholders, ?_⟩
  · rw [buildPackedCodingLanes, hprofile, ok_bind, hplan, ok_bind]
    exact hlanes
  · have hmapped := hperm.map RangeSectorRef.id
    rw [map_map, map_flatMap] at hmapped
    simp only [map_map] at hmapped
    exact hmapped.nodup_iff.mpr hids
  · rw [flatMap_def, hholders]
    exact hrun.debits

/-- A packed sector without slots. -/
def sampleSector (id : Bytes 32) (sectorIndex : U32) : PackedSectorDescriptor :=
  { id := id
    sectorIndex := sectorIndex
    flatRoot := 5
    commitment :=
      { formatVersion := 1, leafSize := 16, byteLen := Fin.ofNat _ v1SectorSize, root := 6 }
    slots := [] }

def sampleSectors : List PackedSectorDescriptor :=
  [sampleSector 8 0, sampleSector 9 1, sampleSector 10 2]

lemma zeroRootNonzero_transparent : ZeroRootNonzero .transparent := by
  intro zero hzero
  obtain ⟨root, -, hzero⟩ := bind_eq_ok.mp hzero
  obtain rfl := pure_eq_ok.mp hzero
  exact digest_ne_zero _

lemma laneRoster_samplePeers : LaneRoster 7 samplePeers := by
  refine ⟨by decide +kernel, by decide +kernel, fun peer hpeer => ?_, fun peer hpeer => ?_⟩
  · revert peer
    decide +kernel
  · revert peer
    decide +kernel

lemma sampleSectors_codable : ∀ sector ∈ sampleSectors, sector.Codable := by
  intro sector hsector
  simp only [sampleSectors, mem_cons, not_mem_nil, or_false] at hsector
  rcases hsector with rfl | rfl | rfl
  all_goals exact ⟨by decide +kernel, by decide +kernel, by decide +kernel, rfl⟩

/-- The profile of three domains. -/
def sampleProfile : CodingProfile :=
  { formatVersion := 1
    construction := .galois8Vandermonde
    dataShards := 2
    parityShards := 1
    shardSize := Fin.ofNat _ v1SectorSize }

lemma variableCodingProfile_samplePeers :
    variableCodingProfile samplePeers = .ok sampleProfile := by
  decide +kernel

/-- Three sectors in two lanes.  The first takes the only shard of node 2, so that the second goes
to the other node of that domain. -/
theorem lane_construction_realises_plan_two_lanes :
    ZeroRootNonzero .transparent ∧ LaneRoster 7 samplePeers ∧
      ∃ lanes capacity', buildPackedCodingLanes .transparent 7 ⟨9⟩ samplePeers sampleSectors
          (sampleCapacity 1 1 2 1) = .ok (lanes, capacity') ∧
        lanes.map VariableCodingLane.storageHolders = [[⟨2⟩, ⟨3⟩, ⟨4⟩], [⟨1⟩, ⟨3⟩]] := by
  have hplan : planPackedLanePlacements .transparent 7 samplePeers
      (packedLaneSizes sampleProfile sampleSectors) (sampleCapacity 1 1 2 1)
      (Fin.ofNat _ sampleProfile.parityShards.val) =
        .ok [⟨[⟨2⟩, ⟨3⟩], [⟨4⟩]⟩, ⟨[⟨1⟩], [⟨3⟩]⟩] := by
    decide +kernel
  obtain ⟨lanes, capacity', hbuild, -, -, -, hholders, -⟩ :=
    lane_construction_realises_plan .transparent 7 ⟨9⟩ samplePeers sampleSectors
      (sampleCapacity 1 1 2 1) sampleProfile _ zeroRootNonzero_transparent laneRoster_samplePeers
      (by decide +kernel) sampleSectors_codable variableCodingProfile_samplePeers hplan
  exact ⟨zeroRootNonzero_transparent, laneRoster_samplePeers, lanes, capacity', hbuild, hholders⟩

/-- A guild whose id is zero has a plan and no lanes: the geometry is refused. -/
theorem lane_construction_refuses_zero_guild :
    Succeeds (planPackedLanePlacements .transparent 0 samplePeers
      (packedLaneSizes sampleProfile [sampleSector 8 0]) (sampleCapacity 2 3 2 1)
      (Fin.ofNat _ sampleProfile.parityShards.val)) ∧
    buildPackedCodingLanes .transparent 0 ⟨9⟩ samplePeers [sampleSector 8 0]
      (sampleCapacity 2 3 2 1) = .error (.error (.geometryRejected 2 1 .invalidPlan)) := by
  decide +kernel

end MutualBackup

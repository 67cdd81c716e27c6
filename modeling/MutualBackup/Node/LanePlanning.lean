import MutualBackup.Node.LaneFeasibility

/-!
# The planner finds a placement when there is one

The plan of all lanes, from the steps of `LaneFeasibility`.  A `LaneAssignment` is what the plan is
for: every lane has its holders, in different failure domains, and no node is used more often than
it has room.  Whatever the planner returns is one, and it returns a plan whenever there is one: an
assignment fills the lanes from the room of the domains, every step of the planner takes the domains
with the most room, and that choice is safe (`Fillable.greedy`).

Both hold for the arithmetic of the source, so they also say when it fails.  The planner overflows
exactly where the room of a domain, or the holders of a lane that it comes to, do not fit their
type.
-/

namespace MutualBackup

open Framework List

variable {C : Crypto} {guildId : Bytes 32} {peers : List GuildPeer} {parityShards : U64}
  {ordinal : ℕ} {previous : Option PackedLanePlacement} {t t' : Table NodeId U64}
  {sizes : List U64} {room room' : NodeId → ℕ} {lanes : List (List NodeId)}
  {placements : List PackedLanePlacement}

/-! ## Assignments -/

/-- Holders for every lane, as the planner should find them. -/
structure LaneAssignment (peers : List GuildPeer) (room : NodeId → ℕ) (parityShards : U64)
    (sizes : List U64) (lanes : List (List NodeId)) : Prop where
  widths : lanes.map List.length = sizes.map fun size => size.val + parityShards.val
  members : ∀ lane ∈ lanes, ∀ node ∈ lane, ∃ peer ∈ peers, peer.member.nodeId = node
  apart : ∀ lane ∈ lanes, (lane.map (domainOf peers)).Nodup
  within : ∀ node, lanes.flatten.count node ≤ room node

/-- The widths that the lanes ask for. -/
def laneWidths (parityShards : U64) (sizes : List U64) : List ℕ :=
  sizes.map fun size => size.val + parityShards.val

lemma exists_domains (hids : DistinctNodes peers) {lane : List NodeId}
    (hmembers : ∀ node ∈ lane, ∃ peer ∈ peers, peer.member.nodeId = node)
    (hapart : (lane.map (domainOf peers)).Nodup) :
    ∃ chosen : List String, chosen.Nodup ∧ lane.map (domainOf peers) = chosen.map some := by
  have hall : lane.map (domainOf peers) = (lane.filterMap (domainOf peers)).map some := by
    clear hapart
    induction lane with
    | nil => rfl
    | cons node lane ih =>
      obtain ⟨d, hd⟩ := Option.isSome_iff_exists.mp
        ((domainOf_isSome hids).mpr (hmembers node mem_cons_self))
      rw [map_cons, ih fun n hn => hmembers n (mem_cons_of_mem _ hn),
        filterMap_cons_some hd, map_cons, hd]
  refine ⟨_, ?_, hall⟩
  rw [hall] at hapart
  exact hapart.of_map some

/-- **An assignment fills the lanes** from the room of the domains. -/
lemma LaneAssignment.fillable (hids : DistinctNodes peers)
    (h : LaneAssignment peers room parityShards sizes lanes) :
    Fillable (domainRoom peers room) (laneWidths parityShards sizes) := by
  induction sizes generalizing room lanes with
  | nil => trivial
  | cons size sizes ih =>
    cases lanes with
    | nil => cases h.widths
    | cons lane lanes =>
      obtain ⟨hwidth, hwidths⟩ := List.cons.inj h.widths
      have hmembers := h.members lane mem_cons_self
      obtain ⟨chosen, hnodup, hchosen⟩ := exists_domains hids hmembers (h.apart lane mem_cons_self)
      have hused : ∀ node, lane.count node + lanes.flatten.count node ≤ room node := by
        intro node
        have := h.within node
        rwa [flatten_cons, count_append] at this
      have hroom : ∀ node, room node = room node - lane.count node + lane.count node := by
        intro node
        have := hused node
        omega
      have hrest : LaneAssignment peers (fun node => room node - lane.count node) parityShards
          sizes lanes := by
        refine ⟨hwidths, fun l hl => h.members l (mem_cons_of_mem _ hl),
          fun l hl => h.apart l (mem_cons_of_mem _ hl), fun node => ?_⟩
        have := hused node
        omega
      refine ⟨chosen.toFinset, ?_, fun d hd => ?_, ?_⟩
      · have hlength := congrArg List.length hchosen
        rw [length_map, length_map] at hlength
        rw [toFinset_card_of_nodup hnodup, ← hlength, hwidth]
      · have hmem : some d ∈ lane.map (domainOf peers) :=
          hchosen ▸ mem_map_of_mem (mem_toFinset.mp hd)
        obtain ⟨node, hnode, hdomain⟩ := mem_map.mp hmem
        refine (domainRoom_pos hids).mpr ⟨node, hdomain, ?_⟩
        have := hused node
        have := count_pos_iff.mpr hnode
        omega
      · rw [← domainRoom_spend hids hnodup hchosen hroom]
        exact ih hrest

/-! ## Runs -/

/-- The lanes of a plan, one step after another. -/
inductive LaneRun (peers : List GuildPeer) (parityShards : U64) :
    Table NodeId U64 → List U64 → List PackedLanePlacement → Table NodeId U64 → Prop
  | nil (t : Table NodeId U64) : LaneRun peers parityShards t [] [] t
  | cons {t t' t'' : Table NodeId U64} {size : U64} {sizes : List U64} {lanes : ℕ}
      {placement : PackedLanePlacement} {placements : List PackedLanePlacement}
      (step : LaneStep peers lanes parityShards size t placement t')
      (rest : LaneRun peers parityShards t' sizes placements t'') :
      LaneRun peers parityShards t (size :: sizes) (placement :: placements) t''

/-- The holders of a run have given up their room. -/
lemma LaneRun.debits (h : LaneRun peers parityShards t sizes placements t') :
    Debits t (placements.map PackedLanePlacement.holders).flatten t' := by
  induction h with
  | nil t => exact .refl t
  | cons step rest ih => exact step.debits.trans ih

/-- Every lane has the holders for its information and its parity shards. -/
lemma LaneRun.split (h : LaneRun peers parityShards t sizes placements t') :
    Forall₂ (fun size placement => placement.information.length = size.val ∧
      placement.parity.length = parityShards.val) sizes placements := by
  induction h with
  | nil t => exact .nil
  | cons step rest ih => exact .cons ⟨step.information, step.parity⟩ ih

section

variable (hids : DistinctNodes peers)

include hids

/-- **A run is an assignment.** -/
lemma LaneRun.assignment (h : LaneRun peers parityShards t sizes placements t') :
    LaneAssignment peers (roomIn t) parityShards sizes
      (placements.map PackedLanePlacement.holders) := by
  have hdebits := h.debits
  refine ⟨?_, ?_, ?_, fun node => ?_⟩
  · clear hdebits
    induction h with
    | nil t => rfl
    | cons step rest ih =>
      rw [map_cons, map_cons, ih, map_cons, PackedLanePlacement.holders,
        length_append, step.information, step.parity]
  · clear hdebits
    induction h with
    | nil t => exact fun lane hlane => by cases hlane
    | cons step rest ih =>
      intro lane hlane
      rcases mem_cons.mp hlane with rfl | hlane
      · obtain ⟨chosen, -, hchosen, -⟩ := step.domains
        intro node hnode
        have hmem : domainOf peers node ∈ chosen.map some := hchosen ▸ mem_map_of_mem hnode
        obtain ⟨d, -, hd⟩ := mem_map.mp hmem
        exact (domainOf_isSome hids).mp (by rw [← hd]; rfl)
      · exact ih lane hlane
  · clear hdebits
    induction h with
    | nil t => exact fun lane hlane => by cases hlane
    | cons step rest ih =>
      intro lane hlane
      rcases mem_cons.mp hlane with rfl | hlane
      · obtain ⟨chosen, hnodup, hchosen, -⟩ := step.domains
        rw [hchosen]
        exact hnodup.map (Option.some_injective _)
      · exact ih lane hlane
  · rw [hdebits.room node]
    exact Nat.le_add_left _ _

/-- A step from room that fills the lanes leaves room that fills the others. -/
lemma LaneStep.fillable {size : U64} {left : ℕ} {placement : PackedLanePlacement}
    (h : LaneStep peers left parityShards size t placement t') (hleft : sizes.length + 1 ≤ left)
    (hfill : Fillable (domainRoom peers (roomIn t)) (laneWidths parityShards (size :: sizes))) :
    Fillable (domainRoom peers (roomIn t')) (laneWidths parityShards sizes) := by
  obtain ⟨chosen, hnodup, hchosen, hlargest⟩ := h.domains
  rw [domainRoom_spend hids hnodup hchosen h.debits.room]
  refine hfill.greedy ?_ fun a ha b hb => ?_
  · have hlength := congrArg List.length hchosen
    rw [length_map, length_map, PackedLanePlacement.holders, length_append,
      h.information, h.parity] at hlength
    rw [toFinset_card_of_nodup hnodup, ← hlength]
  · have hle := hlargest a (mem_toFinset.mp ha) b fun hmem => hb (mem_toFinset.mpr hmem)
    rw [length_map]
    omega

variable (hprevious : PreviousSound peers previous)

include hprevious

/-- Whatever the planner returns is a run. -/
lemma LaneRun.of_planLanes
    (h : planLanes C guildId peers parityShards ordinal previous t sizes = .ok placements) :
    ∃ t', LaneRun peers parityShards t sizes placements t' := by
  induction sizes generalizing ordinal previous t placements with
  | nil =>
    obtain rfl := pure_eq_ok.mp h
    exact ⟨t, .nil t⟩
  | cons size sizes ih =>
    obtain ⟨⟨placement, t'⟩, hlane, h⟩ := bind_eq_ok.mp h
    obtain ⟨rest, hrest, h⟩ := bind_eq_ok.mp h
    obtain rfl := pure_eq_ok.mp h
    obtain ⟨-, -, hstep⟩ := LaneStep.of_planLane hids hprevious hlane
    obtain ⟨t'', hrun⟩ := ih hstep.previousSound hrest
    exact ⟨t'', .cons hstep hrun⟩

variable (hfits : RoomFits peers t)

include hfits

/-- **Lanes that can be filled are planned.** -/
lemma planLanes_succeeds (hsizes : ∀ size ∈ sizes, size.val + parityShards.val < 2 ^ 64)
    (hfill : Fillable (domainRoom peers (roomIn t)) (laneWidths parityShards sizes)) :
    Succeeds (planLanes C guildId peers parityShards ordinal previous t sizes) := by
  induction sizes generalizing ordinal previous t with
  | nil => exact ⟨[], rfl⟩
  | cons size sizes ih =>
    rcases planLane_cases hids hprevious hfits (hsizes size mem_cons_self) with
      ⟨placement, t', hlane, hstep⟩ | ⟨-, hfew⟩
    · obtain ⟨rest, hrest⟩ := ih hstep.previousSound (hstep.debits.roomFits hfits)
        (fun s hs => hsizes s (mem_cons_of_mem _ hs)) (hstep.fillable hids le_rfl hfill)
      exact ⟨placement :: rest, bind_eq_ok.mpr ⟨_, hlane, bind_eq_ok.mpr ⟨rest, hrest, rfl⟩⟩⟩
    · obtain ⟨s, hcard, hpos, -⟩ := hfill
      exact absurd hcard (hfew s hpos).ne

/-- A lane that is reached and does not fit stops the planner. -/
lemma planLanes_overflow {before after : List U64} {size : U64}
    (hlarge : 2 ^ 64 ≤ size.val + parityShards.val)
    (hfill : Fillable (domainRoom peers (roomIn t)) (laneWidths parityShards before)) :
    planLanes C guildId peers parityShards ordinal previous t (before ++ size :: after) =
      .error .overflow := by
  induction before generalizing ordinal previous t with
  | nil =>
    rw [nil_append, planLanes, planLane_overflow hids (.inl hlarge)]
    rfl
  | cons first before ih =>
    rw [cons_append, planLanes]
    by_cases hfirst : first.val + parityShards.val < 2 ^ 64
    · rcases planLane_cases hids hprevious hfits hfirst with
        ⟨placement, t', hlane, hstep⟩ | ⟨-, hfew⟩
      · have hleft : before.length + 1 ≤ (before ++ size :: after).length + 1 := by
          rw [length_append]
          omega
        rw [hlane, ok_bind]
        dsimp only
        rw [ih hstep.previousSound (hstep.debits.roomFits hfits) (hstep.fillable hids hleft hfill)]
        rfl
      · obtain ⟨s, hcard, hpos, -⟩ := hfill
        exact absurd hcard (hfew s hpos).ne
    · rw [planLane_overflow hids (.inl (not_lt.mp hfirst))]
      rfl

/-- Nothing else does. -/
lemma noOverflow_planLanes
    (hwidths : ∀ before size after placements t', sizes = before ++ size :: after →
      LaneRun peers parityShards t before placements t' → size.val + parityShards.val < 2 ^ 64) :
    NoOverflow (planLanes C guildId peers parityShards ordinal previous t sizes) := by
  induction sizes generalizing ordinal previous t with
  | nil => exact noOverflow_ok _
  | cons size sizes ih =>
    have hsize := hwidths [] size sizes [] t rfl (.nil t)
    rw [planLanes]
    rcases planLane_cases hids hprevious hfits hsize with ⟨placement, t', hlane, hstep⟩ | ⟨hfail, -⟩
    · rw [hlane, ok_bind]
      refine noOverflow_bind (ih hstep.previousSound (hstep.debits.roomFits hfits) ?_) fun _ _ =>
        noOverflow_ok _
      intro before next after placements t'' hsplit hrun
      exact hwidths (size :: before) next after (placement :: placements) t''
        (by rw [hsplit, cons_append]) (.cons hstep hrun)
    · rw [hfail]
      exact noOverflow_fail _

end

/-! ## The plan -/

lemma previousSound_none : PreviousSound peers none := fun _ h => by cases h

lemma LaneAssignment.width_le
    (h : LaneAssignment peers room parityShards sizes lanes) {size : U64} (hsize : size ∈ sizes) :
    size.val + parityShards.val ≤ peers.length := by
  have hmem : size.val + parityShards.val ∈ lanes.map List.length := h.widths ▸ mem_map_of_mem hsize
  obtain ⟨lane, hlane, hlength⟩ := mem_map.mp hmem
  have hnodup : lane.Nodup := (h.apart lane hlane).of_map _
  have hsubset : lane ⊆ peers.map fun peer => peer.member.nodeId := by
    intro node hnode
    obtain ⟨peer, hpeer, rfl⟩ := h.members lane hlane node hnode
    exact mem_map_of_mem hpeer
  have hle := (subperm_of_subset hnodup hsubset).length_le
  rw [length_map] at hle
  omega

/-- **Placement is sound and complete.**  Peers form a slice, so their number is a `usize`. -/
theorem lane_placement_sound_and_complete (C : Crypto) (guildId : Bytes 32) (laneSizes : List U64)
    (peers : List GuildPeer) (capacity : Table NodeId U64) (parityShards : U64)
    (hpeers : peers.length < 2 ^ 64) (hids : DistinctNodes peers)
    (hroom : RoomFits peers capacity) :
    (Succeeds (planPackedLanePlacements C guildId peers laneSizes capacity parityShards) ↔
      ∃ lanes, LaneAssignment peers (roomIn capacity) parityShards laneSizes lanes) ∧
    ∀ placements,
      planPackedLanePlacements C guildId peers laneSizes capacity parityShards = .ok placements →
        LaneAssignment peers (roomIn capacity) parityShards laneSizes
          (placements.map PackedLanePlacement.holders) ∧
        Forall₂ (fun size placement => placement.information.length = size.val ∧
          placement.parity.length = parityShards.val) laneSizes placements := by
  constructor
  · constructor
    · rintro ⟨placements, h⟩
      obtain ⟨t', hrun⟩ := LaneRun.of_planLanes hids previousSound_none h
      exact ⟨_, hrun.assignment hids⟩
    rintro ⟨lanes, hlanes⟩
    exact planLanes_succeeds hids previousSound_none hroom
      (fun size hsize => (hlanes.width_le hsize).trans_lt hpeers) (hlanes.fillable hids)
  · intro placements h
    obtain ⟨t', hrun⟩ := LaneRun.of_planLanes hids previousSound_none h
    exact ⟨hrun.assignment hids, hrun.split⟩

/-- A peer without endpoints. -/
def samplePeer (node : Bytes 32) (failureDomain : String) : GuildPeer :=
  { member := { nodeId := ⟨node⟩, recoveryPublicKey := ⟨node⟩, failureDomain := failureDomain }
    endpoints := [] }

/-- Four peers in three domains. -/
def samplePeers : List GuildPeer :=
  [samplePeer 1 "attic", samplePeer 2 "attic", samplePeer 3 "barn", samplePeer 4 "cellar"]

/-- What the four peers report: the first two are in one domain. -/
def sampleCapacity (first second third fourth : U64) : Table NodeId U64 :=
  (((Table.empty.put ⟨1⟩ first).put ⟨2⟩ second).put ⟨3⟩ third).put ⟨4⟩ fourth

lemma roomFits_of_peers {t : Table NodeId U64}
    (h : ∀ peer ∈ peers, domainRoom peers (roomIn t) peer.member.failureDomain < 2 ^ 64) :
    RoomFits peers t := by
  intro domain
  by_cases hdomain : ∃ peer ∈ peers, peer.member.failureDomain = domain
  · obtain ⟨peer, hpeer, rfl⟩ := hdomain
    exact h peer hpeer
  · have hnone : nodesIn peers domain = [] := by
      rw [nodesIn, map_eq_nil_iff, filter_eq_nil_iff]
      intro peer hpeer
      simpa using fun heq => hdomain ⟨peer, hpeer, heq⟩
    rw [domainRoom, hnone]
    exact Nat.two_pow_pos 64

theorem lane_placement_sound_and_complete_three_lanes :
    samplePeers.length < 2 ^ 64 ∧ DistinctNodes samplePeers ∧
      RoomFits samplePeers (sampleCapacity 2 3 2 1) ∧
      ∃ lanes, LaneAssignment samplePeers (roomIn (sampleCapacity 2 3 2 1)) 1 [1, 1, 1] lanes := by
  have hpeers : samplePeers.length < 2 ^ 64 := by decide
  have hids : DistinctNodes samplePeers := by decide +kernel
  have hroom : RoomFits samplePeers (sampleCapacity 2 3 2 1) := by
    refine roomFits_of_peers fun peer hpeer => ?_
    revert peer
    decide +kernel
  refine ⟨hpeers, hids, hroom, ?_⟩
  refine (lane_placement_sound_and_complete .transparent 7 [1, 1, 1] samplePeers
    (sampleCapacity 2 3 2 1) 1 hpeers hids hroom).1.mp ?_
  exact ⟨[⟨[⟨2⟩], [⟨3⟩]⟩, ⟨[⟨2⟩], [⟨3⟩]⟩, ⟨[⟨2⟩], [⟨4⟩]⟩], by decide +kernel⟩

/-! ## Hostile reports -/

/-- Every report cut to the number of lanes. -/
def cappedCapacity (lanes : ℕ) (capacity : Table NodeId U64) : Table NodeId U64 :=
  capacity.mapValues fun reported => ⟨min reported.val lanes, by omega⟩

lemma roomIn_cappedCapacity (count : ℕ) (node : NodeId) :
    roomIn (cappedCapacity count t) node = min (roomIn t node) count := by
  rw [roomIn, roomIn, capacityOf, capacityOf, cappedCapacity, Table.get_mapValues]
  cases t.get node with
  | none => exact (Nat.zero_min count).symm
  | some reported => rfl

/-- The plan neither panics nor wraps, and reports count for no more than the number of lanes. -/
def RobustPlan (C : Crypto) (guildId : Bytes 32) (laneSizes : List U64) (peers : List GuildPeer)
    (capacity : Table NodeId U64) (parityShards : U64) : Prop :=
  NoOverflow (planPackedLanePlacements C guildId peers laneSizes capacity parityShards) ∧
  (Succeeds (planPackedLanePlacements C guildId peers laneSizes capacity parityShards) ↔
    Succeeds (planPackedLanePlacements C guildId peers laneSizes
      (cappedCapacity laneSizes.length capacity) parityShards))

/-- No lane that can be reached asks for more holders than fit a `usize`. -/
def WidthsFit (peers : List GuildPeer) (room : NodeId → ℕ) (parityShards : U64)
    (sizes : List U64) : Prop :=
  ∀ before size after, sizes = before ++ size :: after →
    (∃ lanes, LaneAssignment peers room parityShards before lanes) →
      size.val + parityShards.val < 2 ^ 64

lemma LaneAssignment.mono (h : LaneAssignment peers room parityShards sizes lanes)
    (hroom : ∀ node, room node ≤ room' node) :
    LaneAssignment peers room' parityShards sizes lanes :=
  ⟨h.widths, h.members, h.apart, fun node => (h.within node).trans (hroom node)⟩

/-- An assignment contains one of every first part of the lanes. -/
lemma LaneAssignment.front {before after : List U64}
    (h : LaneAssignment peers room parityShards (before ++ after) lanes) :
    ∃ front, LaneAssignment peers room parityShards before front := by
  refine ⟨lanes.take before.length, ?_, fun lane hlane => h.members lane (mem_of_mem_take hlane),
    fun lane hlane => h.apart lane (mem_of_mem_take hlane), fun node => ?_⟩
  · rw [map_take, h.widths, map_append]
    exact take_left' (length_map _)
  · have hwithin := h.within node
    rw [← take_append_drop before.length lanes, flatten_append, count_append] at hwithin
    omega

lemma min_sum_le_sum_min {α : Type} (f : α → ℕ) (n : ℕ) (xs : List α) :
    min (xs.map f).sum n ≤ (xs.map fun x => min (f x) n).sum := by
  induction xs with
  | nil => simp
  | cons x xs ih =>
    simp only [map_cons, sum_cons]
    omega

/-- **Placement is robust exactly for reports that can be added up.** -/
theorem lane_placement_robust_iff_room_fits (C : Crypto) (guildId : Bytes 32)
    (laneSizes : List U64) (peers : List GuildPeer) (capacity : Table NodeId U64)
    (parityShards : U64) (hids : DistinctNodes peers) :
    RobustPlan C guildId laneSizes peers capacity parityShards ↔ laneSizes = [] ∨
        (RoomFits peers capacity ∧ WidthsFit peers (roomIn capacity) parityShards laneSizes) := by
  constructor
  · rintro ⟨hno, -⟩
    cases laneSizes with
    | nil => exact .inl rfl
    | cons size sizes =>
      have hfits : RoomFits peers capacity := by
        by_contra hlarge
        refine hno ?_
        rw [planPackedLanePlacements, planLanes, planLane_overflow hids (.inr hlarge)]
        rfl
      refine .inr ⟨hfits, fun before next after hsplit hassigned => ?_⟩
      obtain ⟨lanes, hlanes⟩ := hassigned
      by_contra hlarge
      refine hno ?_
      rw [planPackedLanePlacements, hsplit]
      exact planLanes_overflow hids previousSound_none hfits (not_lt.mp hlarge)
        (hlanes.fillable hids)
  · rintro (rfl | ⟨hfits, hwidths⟩)
    · exact ⟨noOverflow_ok _, ⟨fun _ => ⟨[], rfl⟩, fun _ => ⟨[], rfl⟩⟩⟩
    · refine ⟨noOverflow_planLanes hids previousSound_none hfits ?_, ?_⟩
      · intro before size after placements t' hsplit hrun
        exact hwidths before size after hsplit ⟨_, hrun.assignment hids⟩
      · -- both are the existence of an assignment
        have hcapped : ∀ node, roomIn (cappedCapacity laneSizes.length capacity) node ≤
            roomIn capacity node := by
          intro node
          rw [roomIn_cappedCapacity]
          exact min_le_left _ _
        have hsizes :
            (∃ lanes, LaneAssignment peers (roomIn capacity) parityShards laneSizes lanes) →
            ∀ size ∈ laneSizes, size.val + parityShards.val < 2 ^ 64 := by
          rintro ⟨lanes, hlanes⟩ size hsize
          obtain ⟨before, after, hsplit⟩ := append_of_mem hsize
          exact hwidths before size after hsplit (hsplit ▸ hlanes).front
        constructor
        · rintro ⟨placements, h⟩
          obtain ⟨t', hrun⟩ := LaneRun.of_planLanes hids previousSound_none h
          have hassigned := hrun.assignment hids
          refine planLanes_succeeds hids previousSound_none (hfits.mono hcapped)
            (hsizes ⟨_, hassigned⟩) ((hassigned.fillable hids).of_min_le fun domain => ?_)
          have hroom : roomIn (cappedCapacity laneSizes.length capacity) =
              fun node => min (roomIn capacity node) laneSizes.length :=
            funext (roomIn_cappedCapacity laneSizes.length)
          rw [laneWidths, length_map, domainRoom, domainRoom, hroom]
          exact min_sum_le_sum_min _ _ _
        · rintro ⟨placements, h⟩
          obtain ⟨t', hrun⟩ := LaneRun.of_planLanes hids previousSound_none h
          have hassigned := (hrun.assignment hids).mono hcapped
          exact planLanes_succeeds hids previousSound_none hfits (hsizes ⟨_, hassigned⟩)
            (hassigned.fillable hids)

theorem lane_placement_robust_iff_room_fits_three_lanes :
    DistinctNodes samplePeers ∧
      RobustPlan .transparent 7 [1, 1, 1] samplePeers (sampleCapacity 2 3 2 1) 1 := by
  have hids : DistinctNodes samplePeers := by decide +kernel
  refine ⟨hids, (lane_placement_robust_iff_room_fits .transparent 7 [1, 1, 1] samplePeers
    (sampleCapacity 2 3 2 1) 1 hids).mpr (.inr ⟨?_, ?_⟩)⟩
  · refine roomFits_of_peers fun peer hpeer => ?_
    revert peer
    decide +kernel
  · intro before size after hsplit _
    have hsize : size ∈ [1, 1, 1] := hsplit ▸ mem_append_right _ mem_cons_self
    simp only [mem_cons, not_mem_nil, or_false, or_self] at hsize
    subst hsize
    decide

/-- Two peers of one domain report more together than fits: the planner stops, although it has a
plan for the same reports cut to the one lane. -/
theorem lane_placement_overflows_two_reports :
    DistinctNodes samplePeers ∧
    planPackedLanePlacements .transparent 7 samplePeers [1]
      (sampleCapacity U64.max 1 1 1) 1 = .error .overflow ∧
    planPackedLanePlacements .transparent 7 samplePeers [1]
      (cappedCapacity 1 (sampleCapacity U64.max 1 1 1)) 1 =
        .ok [{ information := [⟨3⟩], parity := [⟨4⟩] }] := by
  decide +kernel

end MutualBackup

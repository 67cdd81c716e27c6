import Mathlib.Data.Prod.Lex
import Mathlib.Data.String.Basic
import MutualBackup.Framework.LaneFill
import MutualBackup.Framework.Table
import MutualBackup.Core.Attempt
import MutualBackup.Core.Guild

/-!
# Placing packed lanes

`plan_packed_lane_placements` of `p2p.rs` chooses the holders of every packed coding lane before any
lane is built.  A lane of `n` information sectors needs `n` and the parity width of holders, in
different failure domains, and every holder gives up one of the shards it reported room for.

A lane takes the domains with the most room left, where room counts for no more than the lanes that
are still to come, and among equals those of the lane before.  In a domain it stays with the holder
of the lane before, or takes the peer with the most room.

The room of a domain is a sum of reported `u64` values that the source adds without a check, before
it is capped; here as elsewhere an addition that does not fit is `overflow`.  A count of lanes is a
number, since it is the length of a slice.  Failure domains are compared as strings, whose order by
code points is the one of their UTF-8 bytes.
-/

namespace MutualBackup

open Framework

structure GuildPeer where
  member : Member
  endpoints : List String
  deriving DecidableEq, Repr

/-- The errors of placing and of building lanes, with the texts that `bail!` and `context` give. -/
inductive CodingLaneError where
  /-- "packed coding capacity cannot satisfy every lane" -/
  | capacityCannotSatisfy
  /-- "selected packed domain has no remaining holder" -/
  | noRemainingHolder
  /-- "selected packed holder has no capacity record" -/
  | noCapacityRecord
  /-- "variable coding requires at least three distinct failure domains" -/
  | tooFewFailureDomains
  | profile (e : CodingError)
  | merkle (e : MerkleError)
  /-- "variable coding lane has an invalid number of information sources" -/
  | invalidSourceCount
  /-- "variable coding source owner is not an active member" -/
  | ownerNotActive
  /-- "variable coding source is invalid or reuses a failure domain" -/
  | invalidSource
  /-- "planned variable parity has the wrong width" -/
  | wrongParityWidth
  /-- "planned variable parity holder is not active" -/
  | parityHolderNotActive
  /-- "planned variable parity holder is unavailable or reuses a domain" -/
  | parityHolderUnavailable
  /-- "variable coding roster has too few parity domains with available capacity" -/
  | tooFewParityDomains
  /-- "variable coding roster has too few distinct placement domains" -/
  | tooFewPlacementDomains
  /-- "variable coding geometry rejected .. information and .. parity roles" -/
  | geometryRejected (information parity : ℕ) (e : CodingAttemptError)
  /-- "packed sector commitment has the wrong fixed size" -/
  | wrongCommitmentSize
  /-- "selected information holder has no capacity record" -/
  | noInformationCapacity
  /-- "selected information holder capacity was exhausted" -/
  | informationCapacityExhausted
  /-- "selected parity holder has no capacity record" -/
  | noParityCapacity
  /-- "selected parity holder capacity was exhausted" -/
  | parityCapacityExhausted
  deriving DecidableEq, Repr

structure PackedLanePlacement where
  information : List NodeId
  parity : List NodeId
  deriving DecidableEq, Repr

/-- `placement.information.iter().chain(&placement.parity)`. -/
def PackedLanePlacement.holders (p : PackedLanePlacement) : List NodeId := p.information ++ p.parity

/-- `remaining.get(node).copied().unwrap_or(0)`. -/
def capacityOf (remaining : Table NodeId U64) (node : NodeId) : U64 := (remaining.get node).getD 0

section Plan

variable (C : Crypto) (guildId : Bytes 32) (peers : List GuildPeer)

/-- `peer_by_id`: of peers with one id the map keeps the last. -/
def peerById (node : NodeId) : Option GuildPeer :=
  peers.reverse.find? fun peer => peer.member.nodeId = node

/-- The failure domain of a peer. -/
def domainOf (node : NodeId) : Option String :=
  (peerById peers node).map fun peer => peer.member.failureDomain

/-- The failure domains of the lane before, in the order of its holders. -/
def previousDomains (previous : Option PackedLanePlacement) : List String :=
  previous.elim [] fun placement => placement.holders.filterMap (domainOf peers)

/-- `previous_order`: of a domain that occurs twice the map keeps the last place. -/
def previousRank (previous : Option PackedLanePlacement) (domain : String) : Option ℕ :=
  ((previousDomains peers previous).zipIdx.reverse.find? fun entry => entry.1 = domain).map Prod.snd

/-- `domains`: the peers that have room left, by failure domain. -/
def openDomains (remaining : Table NodeId U64) : Table String (List NodeId) :=
  peers.foldl (fun domains peer =>
    if 0 < capacityOf remaining peer.member.nodeId then
      domains.put peer.member.failureDomain
        ((domains.get peer.member.failureDomain).getD [] ++ [peer.member.nodeId])
    else domains) .empty

structure RankedDomain where
  capacity : ℕ
  previous : ℕ
  score : Bytes 32
  domain : String
  deriving DecidableEq, Repr

/-- The key that `ranked` is sorted by. -/
def RankedDomain.order (r : RankedDomain) : ℕᵒᵈ ×ₗ ℕ ×ₗ Bytes 32 ×ₗ String :=
  toLex (OrderDual.toDual r.capacity, toLex (r.previous, toLex (r.score, r.domain)))

/-- `nodes.iter().map(..).sum::<u64>()`. -/
def domainSum (remaining : Table NodeId U64) (nodes : List NodeId) : Outcome CodingLaneError U64 :=
  nodes.foldlM (fun sum node => uncheckedAdd sum (capacityOf remaining node)) 0

/-- The score that decides between domains of equal capacity and rank. -/
def domainScore (ordinal : ℕ) (domain : String) : Bytes 32 :=
  C.deriveKey "mutualbackup packed lane planner v1"
    (guildId.toList ++ beBytes 8 ordinal ++ domain.toByteArray.data.toList)

section

variable (ordinal remainingLanes : ℕ) (previous : Option PackedLanePlacement)
  (remaining : Table NodeId U64)

/-- The entry of `ranked` for one domain; a domain that the lane before did not use has the rank
`usize::MAX`. -/
def rankDomain (entry : String × List NodeId) : Outcome CodingLaneError RankedDomain := do
  let sum ← domainSum remaining entry.2
  pure { capacity := min sum.val remainingLanes
         previous := (previousRank peers previous entry.1).getD (2 ^ 64 - 1)
         score := domainScore C guildId ordinal entry.1
         domain := entry.1 }

/-- `ranked`, sorted. -/
def rankDomains : Outcome CodingLaneError (List RankedDomain) := do
  let ranked ← (openDomains peers remaining).rows.mapM
    (rankDomain C guildId peers ordinal remainingLanes previous remaining)
  pure (ranked.insertionSort fun a b => a.order ≤ b.order)

end

/-- `ordered_domains`: the selected domains of the lane before in its order, then the others. -/
def orderDomains (previous : Option PackedLanePlacement) (selected : List String) : List String :=
  selected.foldl (fun ordered domain => if domain ∈ ordered then ordered else ordered ++ [domain])
    ((previousDomains peers previous).filter fun domain => domain ∈ selected)

/-- The first holder of the lane before that is in the domain and has room left.  The source
indexes `peer_by_id` with every holder it looks at. -/
def previousHolder (remaining : Table NodeId U64) (domain : String) :
    List NodeId → Outcome CodingLaneError (Option NodeId)
  | [] => pure none
  | node :: nodes => do
    let peer ← expect (peerById peers node)
    if peer.member.failureDomain = domain ∧ 0 < capacityOf remaining node then pure (some node)
    else previousHolder remaining domain nodes

/-- The holder of the lane in one domain. -/
def chooseHolder (domains : Table String (List NodeId)) (previous : Option PackedLanePlacement)
    (remaining : Table NodeId U64) (domain : String) : Outcome CodingLaneError NodeId := do
  let holder ← previousHolder peers remaining domain (previous.elim [] PackedLanePlacement.holders)
  match holder with
  | some node => pure node
  | none => do
    let nodes ← expect (domains.get domain)
    okOr (maxByKey (fun node => toLex (capacityOf remaining node, node)) nodes) .noRemainingHolder

/-- One domain of the loop that fills `holders`. -/
def takeHolder (domains : Table String (List NodeId)) (previous : Option PackedLanePlacement)
    (state : Table NodeId U64 × List NodeId) (domain : String) :
    Outcome CodingLaneError (Table NodeId U64 × List NodeId) := do
  let holder ← chooseHolder peers domains previous state.1 domain
  let available ← okOr (state.1.get holder) .noCapacityRecord
  let left ← uncheckedSub available 1
  pure (state.1.put holder left, state.2 ++ [holder])

/-- One lane: its placement, and the room that is left. -/
def planLane (parityShards : U64) (ordinal remainingLanes : ℕ)
    (previous : Option PackedLanePlacement) (remaining : Table NodeId U64)
    (informationCount : U64) :
    Outcome CodingLaneError (PackedLanePlacement × Table NodeId U64) := do
  let storageCount ← uncheckedAdd informationCount parityShards
  let ranked ← rankDomains C guildId peers ordinal remainingLanes previous remaining
  reject (ranked.length < storageCount.val) .capacityCannotSatisfy
  -- `selected_domains` is an ordered set, of keys of a map
  let selected := ((ranked.take storageCount.val).map RankedDomain.domain).insertionSort (· ≤ ·)
  let (remaining, holders) ← (orderDomains peers previous selected).foldlM
    (takeHolder peers (openDomains peers remaining) previous) (remaining, [])
  -- the two slices of `holders` exist
  let cut ← expect
    (if informationCount.val ≤ holders.length then some informationCount.val else none)
  pure ({ information := holders.take cut, parity := holders.drop cut }, remaining)

/-- The loop over the lanes, after those that have been placed. -/
def planLanes (parityShards : U64) :
    ℕ → Option PackedLanePlacement → Table NodeId U64 → List U64 →
      Outcome CodingLaneError (List PackedLanePlacement)
  | _, _, _, [] => pure []
  | ordinal, previous, remaining, informationCount :: rest => do
    let (placement, remaining) ← planLane C guildId peers parityShards ordinal (rest.length + 1)
      previous remaining informationCount
    let placements ← planLanes parityShards (ordinal + 1) (some placement) remaining rest
    pure (placement :: placements)

/-- `plan_packed_lane_placements`. -/
def planPackedLanePlacements (laneSizes : List U64) (placementCapacity : Table NodeId U64)
    (parityShards : U64) : Outcome CodingLaneError (List PackedLanePlacement) :=
  planLanes C guildId peers parityShards 0 none placementCapacity laneSizes

end Plan

end MutualBackup

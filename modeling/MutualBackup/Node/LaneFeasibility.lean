import MutualBackup.Node.LanePlacement

/-!
# What a lane takes

One lane of the planner in terms of the room of the failure domains.  `LaneStep` says everything a
lane does: the widths of its two halves, different domains, room given up one shard a holder, and no
domain passed over that has more room than a chosen one.  `planLane_cases` says that a lane succeeds
with such a step unless there are too few domains with room, and `planLane_overflow` when its
arithmetic does not fit.

A node belongs to one domain, so the room of a domain is what its peers have, and a choice in one
domain leaves the others as they were.
-/

namespace MutualBackup

open Framework List

/-! ## Peers and their domains -/

section Domains

variable {peers : List GuildPeer} {node : NodeId} {domain : String}

/-- No two peers with one node id. -/
def DistinctNodes (peers : List GuildPeer) : Prop :=
  (peers.map fun peer => peer.member.nodeId).Nodup
  deriving Decidable

section

variable (hids : DistinctNodes peers)

include hids

lemma peerById_eq_some {peer : GuildPeer} :
    peerById peers node = some peer ↔ peer ∈ peers ∧ peer.member.nodeId = node := by
  rw [peerById, find?_eq_some_of_unique]
  · rw [mem_reverse, decide_eq_true_eq]
  · intro p hp q hq hpn hqn
    have hsame := (of_decide_eq_true hpn).trans (of_decide_eq_true hqn).symm
    exact inj_on_of_nodup_map hids (mem_reverse.mp hp) (mem_reverse.mp hq) hsame

lemma domainOf_eq_some : domainOf peers node = some domain ↔
    ∃ peer ∈ peers, peer.member.nodeId = node ∧ peer.member.failureDomain = domain := by
  rw [domainOf, Option.map_eq_some_iff]
  constructor
  · rintro ⟨peer, hpeer, hdomain⟩
    obtain ⟨hmem, hnode⟩ := (peerById_eq_some hids).mp hpeer
    exact ⟨peer, hmem, hnode, hdomain⟩
  · rintro ⟨peer, hmem, hnode, hdomain⟩
    exact ⟨peer, (peerById_eq_some hids).mpr ⟨hmem, hnode⟩, hdomain⟩

lemma domainOf_peer {peer : GuildPeer} (h : peer ∈ peers) :
    domainOf peers peer.member.nodeId = some peer.member.failureDomain :=
  (domainOf_eq_some hids).mpr ⟨peer, h, rfl, rfl⟩

lemma domainOf_isSome : (domainOf peers node).isSome ↔
    ∃ peer ∈ peers, peer.member.nodeId = node := by
  rw [Option.isSome_iff_exists]
  constructor
  · rintro ⟨d, hd⟩
    obtain ⟨peer, hmem, hnode, -⟩ := (domainOf_eq_some hids).mp hd
    exact ⟨peer, hmem, hnode⟩
  · rintro ⟨peer, hmem, rfl⟩
    exact ⟨_, domainOf_peer hids hmem⟩

end

end Domains

/-! ## The room of a domain -/

variable {α : Type}

section Room

variable {peers : List GuildPeer} {room room' : NodeId → ℕ} {domain : String}

/-- The peers of a domain. -/
def nodesIn (peers : List GuildPeer) (domain : String) : List NodeId :=
  (peers.filter fun peer => peer.member.failureDomain = domain).map fun peer => peer.member.nodeId

/-- What the peers of a domain have together. -/
def domainRoom (peers : List GuildPeer) (room : NodeId → ℕ) (domain : String) : ℕ :=
  ((nodesIn peers domain).map room).sum

section

variable (hids : DistinctNodes peers)

include hids

lemma mem_nodesIn {node : NodeId} :
    node ∈ nodesIn peers domain ↔ domainOf peers node = some domain := by
  rw [domainOf_eq_some hids, nodesIn, mem_map]
  constructor
  · rintro ⟨peer, hpeer, hnode⟩
    obtain ⟨hmem, hdomain⟩ := mem_filter.mp hpeer
    exact ⟨peer, hmem, hnode, of_decide_eq_true hdomain⟩
  · rintro ⟨peer, hmem, hnode, hdomain⟩
    exact ⟨peer, mem_filter.mpr ⟨hmem, decide_eq_true hdomain⟩, hnode⟩

lemma nodup_nodesIn (domain : String) : (nodesIn peers domain).Nodup :=
  hids.sublist (filter_sublist.map _)

lemma domainRoom_pos : 0 < domainRoom peers room domain ↔
    ∃ node, domainOf peers node = some domain ∧ 0 < room node := by
  rw [domainRoom, Nat.pos_iff_ne_zero, Ne, sum_eq_zero_iff]
  constructor
  · intro h
    by_contra hnone
    refine h fun r hr => ?_
    obtain ⟨node, hnode, rfl⟩ := mem_map.mp hr
    by_contra hpos
    exact hnone ⟨node, (mem_nodesIn hids).mp hnode, Nat.pos_of_ne_zero hpos⟩
  · rintro ⟨node, hnode, hpos⟩ hzero
    have := hzero _ (mem_map_of_mem ((mem_nodesIn hids).mpr hnode))
    omega

end

lemma domainRoom_mono (h : ∀ node, room node ≤ room' node) :
    domainRoom peers room domain ≤ domainRoom peers room' domain :=
  sum_le_sum fun node _ => h node

/-- The occurrences of different keys are the occurrences of any of them. -/
lemma sum_map_count [DecidableEq α] {keys : List α} (hkeys : keys.Nodup) (xs : List α) :
    (keys.map fun k => xs.count k).sum = xs.countP (· ∈ keys) := by
  induction xs with
  | nil => simp
  | cons x xs ih =>
    have hone : (keys.map fun k => if x = k then 1 else 0).sum = if x ∈ keys then 1 else 0 := by
      rw [← hkeys.count]
      clear ih hkeys
      induction keys with
      | nil => rfl
      | cons k keys ih =>
        rw [map_cons, sum_cons, ih, count_cons, Nat.add_comm]
        simp only [beq_iff_eq, eq_comm (a := k)]
    simp only [count_cons, beq_iff_eq, sum_map_add, ih, hone, countP_cons, decide_eq_true_eq]

/-- A lane takes from every domain what it has there. -/
lemma domainRoom_eq_add (hids : DistinctNodes peers) {holders : List NodeId}
    (h : ∀ node, room node = room' node + holders.count node) (domain : String) :
    domainRoom peers room domain =
      domainRoom peers room' domain + (holders.map (domainOf peers)).count (some domain) := by
  have hcount := sum_map_count (nodup_nodesIn hids domain) holders
  have hroom : room = fun node => room' node + holders.count node := funext h
  rw [domainRoom, hroom, sum_map_add, hcount, domainRoom, List.count, countP_map]
  congr 1
  refine countP_congr fun node _ => ?_
  simp [mem_nodesIn hids]

end Room

/-! ## Ranking -/

section Rank

variable {C : Crypto} {guildId : Bytes 32} {peers : List GuildPeer} {remaining : Table NodeId U64}
  {ordinal lanes : ℕ} {previous : Option PackedLanePlacement}

/-- The room that is left, as numbers. -/
def roomIn (remaining : Table NodeId U64) (node : NodeId) : ℕ := (capacityOf remaining node).val

/-- The peers of a domain that have room left. -/
def openNodes (peers : List GuildPeer) (remaining : Table NodeId U64) (domain : String) :
    List NodeId :=
  (nodesIn peers domain).filter fun node => 0 < capacityOf remaining node

lemma get_openDomains (domain : String) : (openDomains peers remaining).get domain =
    if openNodes peers remaining domain = [] then none
    else some (openNodes peers remaining domain) := by
  induction peers using List.reverseRecOn with
  | nil => simp [openDomains, openNodes, nodesIn]
  | append_singleton peers peer ih =>
    have hstep : openDomains (peers ++ [peer]) remaining =
        if 0 < capacityOf remaining peer.member.nodeId then
          (openDomains peers remaining).put peer.member.failureDomain
            (((openDomains peers remaining).get peer.member.failureDomain).getD [] ++
              [peer.member.nodeId])
        else openDomains peers remaining := by
      rw [openDomains, foldl_append]
      rfl
    have hnodes : openNodes (peers ++ [peer]) remaining domain = openNodes peers remaining domain ++
          if peer.member.failureDomain = domain ∧ 0 < capacityOf remaining peer.member.nodeId then
            [peer.member.nodeId] else [] := by
      rw [openNodes, nodesIn, filter_append, map_append, filter_append]
      congr 1
      by_cases hd : peer.member.failureDomain = domain
      · by_cases hc : 0 < capacityOf remaining peer.member.nodeId <;> simp [hd, hc]
      · simp [hd]
    rw [hstep]
    by_cases hc : 0 < capacityOf remaining peer.member.nodeId
    · rw [if_pos hc, Table.get_put]
      by_cases hd : peer.member.failureDomain = domain
      · subst hd
        rw [if_pos ⟨rfl, hc⟩] at hnodes
        rw [if_pos rfl, ih, hnodes]
        by_cases hnil : openNodes peers remaining peer.member.failureDomain = []
        · simp [hnil]
        · simp [hnil]
      · rw [if_neg (fun h => hd h.1), append_nil] at hnodes
        rw [if_neg hd, ih, hnodes]
    · rw [if_neg (fun h => hc h.2), append_nil] at hnodes
      rw [if_neg hc, ih, hnodes]

variable {domain : String}

section

variable (hids : DistinctNodes peers)

include hids

lemma mem_openNodes {node : NodeId} :
    node ∈ openNodes peers remaining domain ↔
      domainOf peers node = some domain ∧ 0 < capacityOf remaining node := by
  rw [openNodes, mem_filter, mem_nodesIn hids, decide_eq_true_eq]

/-- The open domains are those with room. -/
lemma openDomains_isSome :
    ((openDomains peers remaining).get domain).isSome ↔
      0 < domainRoom peers (roomIn remaining) domain := by
  rw [get_openDomains, domainRoom_pos hids]
  split
  · rename_i hnil
    simp only [Option.isSome_none, Bool.false_eq_true, false_iff, not_exists, not_and]
    intro node hdomain hroom
    have hmem : node ∈ openNodes peers remaining domain := (mem_openNodes hids).mpr ⟨hdomain, hroom⟩
    rw [hnil] at hmem
    cases hmem
  · rename_i hne
    simp only [Option.isSome_some, true_iff]
    obtain ⟨node, hnode⟩ := exists_mem_of_ne_nil _ hne
    obtain ⟨hdomain, hroom⟩ := (mem_openNodes hids).mp hnode
    exact ⟨node, hdomain, hroom⟩

lemma exists_openNodes (h : 0 < domainRoom peers (roomIn remaining) domain) :
    ∃ nodes, (openDomains peers remaining).get domain = some nodes ∧ nodes ≠ [] ∧
      ∀ node ∈ nodes, domainOf peers node = some domain ∧ 0 < capacityOf remaining node := by
  obtain ⟨nodes, hnodes⟩ := Option.isSome_iff_exists.mp ((openDomains_isSome hids).mpr h)
  have hget := hnodes
  rw [get_openDomains] at hget
  split at hget
  · cases hget
  · rename_i hne
    obtain rfl := Option.some.inj hget
    exact ⟨_, hnodes, hne, fun node hnode => (mem_openNodes hids).mp hnode⟩

end

lemma sum_openNodes (domain : String) :
    ((openNodes peers remaining domain).map (roomIn remaining)).sum =
      domainRoom peers (roomIn remaining) domain := by
  rw [openNodes, domainRoom]
  induction nodesIn peers domain with
  | nil => rfl
  | cons node nodes ih =>
    by_cases hpos : 0 < capacityOf remaining node
    · rw [filter_cons_of_pos (by simpa using hpos), map_cons, sum_cons, ih, map_cons, sum_cons]
    · have hzero : roomIn remaining node = 0 := by
        rw [roomIn]
        exact Nat.eq_zero_of_not_pos hpos
      rw [filter_cons_of_neg (by simpa using hpos), ih, map_cons, sum_cons, hzero, Nat.zero_add]

/-- The sum has its value, unless that does not fit. -/
lemma domainSum_from (remaining : Table NodeId U64) (nodes : List NodeId) (start : U64) :
    (nodes.foldlM (fun sum node => uncheckedAdd sum (capacityOf remaining node)) start :
      Outcome CodingLaneError U64) =
    if h : start.val + (nodes.map (roomIn remaining)).sum < 2 ^ 64 then .ok ⟨_, h⟩
    else .error .overflow := by
  induction nodes generalizing start with
  | nil => simp
  | cons node nodes ih =>
    rw [foldlM_cons]
    by_cases hfit : start.val + (capacityOf remaining node).val < 2 ^ 64
    · have hadd : (uncheckedAdd start (capacityOf remaining node) : Outcome CodingLaneError U64) =
          .ok ⟨start.val + (capacityOf remaining node).val, hfit⟩ := uncheckedAdd_eq_ok.mpr rfl
      rw [hadd, ok_bind, ih]
      simp only [map_cons, sum_cons, roomIn, Nat.add_assoc]
    · have hadd : (uncheckedAdd start (capacityOf remaining node) : Outcome CodingLaneError U64) =
          .error .overflow := uncheckedAdd_eq_overflow.mpr (Nat.le_of_not_lt hfit)
      have hlarge : ¬ start.val + ((node :: nodes).map (roomIn remaining)).sum < 2 ^ 64 := by
        rw [map_cons, sum_cons, roomIn]
        omega
      rw [hadd, dif_neg hlarge]
      rfl

/-- The room of every domain fits `u64`. -/
def RoomFits (peers : List GuildPeer) (remaining : Table NodeId U64) : Prop :=
  ∀ domain, domainRoom peers (roomIn remaining) domain < 2 ^ 64

lemma rankDomain_cases {entry : String × List NodeId}
    (hentry : entry ∈ (openDomains peers remaining).rows) :
    (domainRoom peers (roomIn remaining) entry.1 < 2 ^ 64 ∧
      ∃ r, rankDomain C guildId peers ordinal lanes previous remaining entry = .ok r ∧
        r.domain = entry.1 ∧ r.capacity = min (domainRoom peers (roomIn remaining) entry.1) lanes) ∨
    (2 ^ 64 ≤ domainRoom peers (roomIn remaining) entry.1 ∧
      rankDomain C guildId peers ordinal lanes previous remaining entry = .error .overflow) := by
  obtain ⟨domain, nodes⟩ := entry
  have hnodes : nodes = openNodes peers remaining domain := by
    have hget := Table.mem_rows.mp hentry
    rw [get_openDomains] at hget
    split at hget
    · cases hget
    · exact (Option.some.inj hget).symm
  subst hnodes
  have hsum := domainSum_from remaining (openNodes peers remaining domain) 0
  simp only [Fin.val_zero, Nat.zero_add, sum_openNodes] at hsum
  by_cases hfit : domainRoom peers (roomIn remaining) domain < 2 ^ 64
  · rw [dif_pos hfit] at hsum
    refine .inl ⟨hfit, ?_⟩
    rw [rankDomain, domainSum, hsum, ok_bind]
    exact ⟨_, rfl, rfl, rfl⟩
  · rw [dif_neg hfit] at hsum
    refine .inr ⟨Nat.le_of_not_lt hfit, ?_⟩
    rw [rankDomain, domainSum, hsum]
    rfl

lemma rankDomain_domain {entry : String × List NodeId} {r : RankedDomain}
    (h : rankDomain C guildId peers ordinal lanes previous remaining entry = .ok r) :
    r.domain = entry.1 := by
  obtain ⟨sum, -, hr⟩ := bind_eq_ok.mp h
  obtain rfl := pure_eq_ok.mp hr
  rfl

/-- What the ranking is: the domains with room, those with the most first. -/
structure Ranking (peers : List GuildPeer) (remaining : Table NodeId U64) (lanes : ℕ)
    (ranked : List RankedDomain) : Prop where
  nodup : (ranked.map RankedDomain.domain).Nodup
  mem : ∀ domain, domain ∈ ranked.map RankedDomain.domain ↔
    0 < domainRoom peers (roomIn remaining) domain
  capacity : ∀ r ∈ ranked, r.capacity = min (domainRoom peers (roomIn remaining) r.domain) lanes
  largest : ranked.Pairwise fun a b => b.capacity ≤ a.capacity

lemma capacity_le_of_order {a b : RankedDomain} (h : a.order ≤ b.order) :
    b.capacity ≤ a.capacity := by
  rcases Prod.Lex.toLex_le_toLex.mp h with hlt | ⟨heq, -⟩
  · exact (OrderDual.toDual_lt_toDual.mp hlt).le
  · exact (OrderDual.toDual_inj.mp heq).ge

/-- **The ranking**, where every sum fits. -/
lemma rankDomains_of_fits (hids : DistinctNodes peers) (hfits : RoomFits peers remaining) :
    ∃ ranked, rankDomains C guildId peers ordinal lanes previous remaining = .ok ranked ∧
      Ranking peers remaining lanes ranked := by
  have hbody : ∀ entry ∈ (openDomains peers remaining).rows,
      ∃ r, rankDomain C guildId peers ordinal lanes previous remaining entry = .ok r ∧
        r.domain = entry.1 ∧
        r.capacity = min (domainRoom peers (roomIn remaining) entry.1) lanes := by
    intro entry hentry
    rcases rankDomain_cases hentry with ⟨-, h⟩ | ⟨hlarge, -⟩
    · exact h
    · exact absurd (hfits entry.1) (not_lt.mpr hlarge)
  obtain ⟨ranked, hranked⟩ := mapM_succeeds fun entry h => (hbody entry h).imp fun _ hr => hr.1
  have hperm := perm_insertionSort (fun a b : RankedDomain => a.order ≤ b.order) ranked
  have hdomains :
      ranked.map RankedDomain.domain = (openDomains peers remaining).rows.map Prod.fst :=
    map_eq_of_mapM hranked fun entry r hr => (rankDomain_domain hr)
  refine ⟨_, by rw [rankDomains, hranked]; rfl, ?_, fun domain => ?_, fun r hr => ?_, ?_⟩
  · rw [(hperm.map _).nodup_iff, hdomains]
    exact (openDomains peers remaining).ascending.nodup_map
  · rw [(hperm.map _).mem_iff, hdomains, Table.mem_keys, openDomains_isSome hids]
  · obtain ⟨i, hi⟩ := getElem?_of_mem (hperm.mem_iff.mp hr)
    obtain ⟨entry, hentry, hrank⟩ := getElem?_of_mapM hranked hi
    obtain ⟨r', hr', hdomain, hcapacity⟩ := hbody entry (mem_of_getElem? hentry)
    obtain rfl := Except.ok.inj (hrank.symm.trans hr')
    rw [hcapacity, hdomain]
  · refine Pairwise.imp (fun h => capacity_le_of_order h) ?_
    exact pairwise_insertionSort _ _

/-- A sum that does not fit stops the planner. -/
lemma rankDomains_overflow (hids : DistinctNodes peers) (hlarge : ¬ RoomFits peers remaining) :
    rankDomains C guildId peers ordinal lanes previous remaining = .error .overflow := by
  obtain ⟨domain, hdomain⟩ := not_forall.mp hlarge
  rw [not_lt] at hdomain
  have hopen : ((openDomains peers remaining).get domain).isSome :=
    (openDomains_isSome hids).mpr (by omega)
  obtain ⟨nodes, hnodes⟩ := Option.isSome_iff_exists.mp hopen
  have hmem := Table.mem_rows.mpr hnodes
  have hover : rankDomain C guildId peers ordinal lanes previous remaining (domain, nodes) =
      .error .overflow := by
    rcases rankDomain_cases hmem with ⟨hlt, -⟩ | ⟨-, h⟩
    · exact absurd hlt (not_lt.mpr hdomain)
    · exact h
  have hall : ∀ entry ∈ (openDomains peers remaining).rows,
      rankDomain C guildId peers ordinal lanes previous remaining entry = .error .overflow ∨
        Succeeds (rankDomain C guildId peers ordinal lanes previous remaining entry) := by
    intro entry hentry
    rcases rankDomain_cases hentry with ⟨-, r, hr, -⟩ | ⟨-, h⟩
    · exact .inr ⟨r, hr⟩
    · exact .inl h
  rw [rankDomains, mapM_overflow hall hmem hover]
  rfl

end Rank

/-! ## Holders -/

section Holders

variable {peers : List GuildPeer} {remaining t t' t'' : Table NodeId U64} {domain : String}
  {domains : Table String (List NodeId)} {previous : Option PackedLanePlacement}
  {holder : NodeId} {holders holders' : List NodeId}

lemma foldl_push_new [DecidableEq α] {xs : List α} (hxs : xs.Nodup) (acc : List α) :
    xs.foldl (fun acc x => if x ∈ acc then acc else acc ++ [x]) acc =
      acc ++ xs.filter fun x => x ∉ acc := by
  induction xs generalizing acc with
  | nil => simp
  | cons x xs ih =>
    obtain ⟨hx, hxs⟩ := nodup_cons.mp hxs
    rw [foldl_cons, ih hxs]
    by_cases hmem : x ∈ acc
    · rw [if_pos hmem, filter_cons_of_neg (by simpa using hmem)]
    · have hrest : (xs.filter fun y => y ∉ acc ++ [x]) = xs.filter fun y => y ∉ acc := by
        refine filter_congr fun y hy => ?_
        have hne : y ≠ x := fun heq => hx (heq ▸ hy)
        simp [hne]
      rw [if_neg hmem, hrest, filter_cons_of_pos (by simpa using hmem), append_assoc]
      rfl

/-- The domains are put in order, none added and none lost. -/
lemma orderDomains_perm (hprevious : (previousDomains peers previous).Nodup)
    {selected : List String} (hselected : selected.Nodup) :
    (orderDomains peers previous selected).Perm selected := by
  rw [orderDomains, foldl_push_new hselected]
  have hnodup : ((previousDomains peers previous).filter fun d => d ∈ selected).Nodup :=
    hprevious.filter _
  refine (perm_ext_iff_of_nodup ?_ hselected).mpr fun d => ?_
  · refine nodup_append.mpr ⟨hnodup, hselected.filter _, fun a ha b hb heq => ?_⟩
    subst heq
    have := (mem_filter.mp hb).2
    simp only [ha, not_true_eq_false, decide_false, Bool.false_eq_true] at this
  · rw [mem_append, mem_filter, mem_filter]
    simp only [decide_eq_true_eq, mem_filter]
    constructor
    · rintro (⟨-, h⟩ | ⟨h, -⟩)
      · exact h
      · exact h
    · intro h
      by_cases hprev : d ∈ previousDomains peers previous
      · exact .inl ⟨hprev, h⟩
      · exact .inr ⟨h, fun hboth => hprev hboth.1⟩

/-- Room given up, one shard for each time a node is named. -/
structure Debits (t : Table NodeId U64) (holders : List NodeId) (t' : Table NodeId U64) : Prop where
  room : ∀ node, roomIn t node = roomIn t' node + holders.count node
  keys : ∀ node, (t'.get node).isSome = (t.get node).isSome

lemma Debits.refl (t : Table NodeId U64) : Debits t [] t := ⟨fun _ => rfl, fun _ => rfl⟩

lemma Debits.trans (h : Debits t holders t') (h' : Debits t' holders' t'') :
    Debits t (holders ++ holders') t'' := by
  refine ⟨fun node => ?_, fun node => (h'.keys node).trans (h.keys node)⟩
  rw [h.room, h'.room, count_append]
  omega

/-- What is left is determined. -/
lemma Debits.unique (h : Debits t holders t') (h' : Debits t holders t'') : t' = t'' := by
  refine Table.ext_get fun node => ?_
  have hroom : roomIn t' node = roomIn t'' node := by
    have := h.room node
    have := h'.room node
    omega
  have hkeys := (h.keys node).trans (h'.keys node).symm
  rw [roomIn, roomIn, capacityOf, capacityOf] at hroom
  cases hleft : t'.get node with
  | none =>
    rw [hleft] at hkeys
    cases hright : t''.get node with
    | none => rfl
    | some b =>
      rw [hright] at hkeys
      cases hkeys
  | some a =>
    cases hright : t''.get node with
    | none =>
      rw [hleft, hright] at hkeys
      cases hkeys
    | some b =>
      rw [hleft, hright, Option.getD_some, Option.getD_some] at hroom
      rw [Fin.ext hroom]

lemma Debits.put {available left : U64} (hget : t.get holder = some available)
    (hleft : available.val = left.val + 1) : Debits t [holder] (t.put holder left) := by
  refine ⟨fun node => ?_, fun node => ?_⟩
  · rw [roomIn, roomIn, capacityOf, capacityOf, Table.get_put]
    by_cases hnode : holder = node
    · subst hnode
      rw [if_pos rfl, hget, Option.getD_some, Option.getD_some, count_singleton_self, hleft]
    · rw [if_neg hnode, count_singleton, if_neg (by simpa using hnode), Nat.add_zero]
  · rw [Table.get_put]
    by_cases hnode : holder = node
    · subst hnode
      rw [if_pos rfl, hget]
      rfl
    · rw [if_neg hnode]

/-- The holders of the lane before are peers in different domains. -/
def PreviousSound (peers : List GuildPeer) (previous : Option PackedLanePlacement) : Prop :=
  ∀ placement ∈ previous, ∃ chosen : List String, chosen.Nodup ∧
    placement.holders.map (domainOf peers) = chosen.map some

lemma filterMap_eq_of_map {β : Type} {f : α → Option β} {xs : List α} {ys : List β}
    (h : xs.map f = ys.map some) : xs.filterMap f = ys := by
  have hid : xs.filterMap f = (xs.map f).filterMap id := by rw [filterMap_map, Function.id_comp]
  rw [hid, h, filterMap_map]
  simp

lemma PreviousSound.nodup (h : PreviousSound peers previous) :
    (previousDomains peers previous).Nodup := by
  cases previous with
  | none => exact nodup_nil
  | some placement =>
    obtain ⟨chosen, hnodup, hchosen⟩ := h placement rfl
    rwa [previousDomains, Option.elim_some, filterMap_eq_of_map hchosen]

lemma PreviousSound.isSome (h : PreviousSound peers previous) {node : NodeId}
    (hnode : node ∈ previous.elim [] PackedLanePlacement.holders) :
    (domainOf peers node).isSome := by
  cases previous with
  | none => cases hnode
  | some placement =>
    obtain ⟨chosen, -, hchosen⟩ := h placement rfl
    have hmem : domainOf peers node ∈ chosen.map some := hchosen ▸ mem_map_of_mem hnode
    obtain ⟨d, -, hd⟩ := mem_map.mp hmem
    rw [← hd]
    rfl

variable {nodes : List NodeId}

lemma previousHolder_eq (remaining : Table NodeId U64) (domain : String)
    (hpeers : ∀ node ∈ nodes, (domainOf peers node).isSome) :
    ∃ found, previousHolder peers remaining domain nodes = .ok found ∧
      ∀ node ∈ found, domainOf peers node = some domain ∧ 0 < capacityOf remaining node := by
  induction nodes with
  | nil => exact ⟨none, rfl, fun node h => by cases h⟩
  | cons node nodes ih =>
    obtain ⟨peer, hpeer⟩ : ∃ peer, peerById peers node = some peer := by
      have hsome := hpeers node mem_cons_self
      rw [domainOf, Option.isSome_map] at hsome
      exact Option.isSome_iff_exists.mp hsome
    rw [previousHolder, hpeer]
    by_cases hgood : peer.member.failureDomain = domain ∧ 0 < capacityOf remaining node
    · refine ⟨some node, if_pos hgood, fun found hfound => ?_⟩
      obtain rfl := Option.some.inj hfound
      refine ⟨?_, hgood.2⟩
      rw [domainOf, hpeer, Option.map_some, hgood.1]
    · obtain ⟨found, hfound, hspec⟩ := ih fun n hn => hpeers n (mem_cons_of_mem _ hn)
      exact ⟨found, (if_neg hgood).trans hfound, hspec⟩

section

variable (hprevious : PreviousSound peers previous)

include hprevious

section

variable (hnodes : domains.get domain = some nodes) (hne : nodes ≠ [])
  (hroom : ∀ node ∈ nodes, domainOf peers node = some domain ∧ 0 < capacityOf t node)

include hnodes hne hroom

/-- A domain whose listed peers have room yields one of them. -/
lemma chooseHolder_eq :
    ∃ holder, chooseHolder peers domains previous t domain = .ok holder ∧
      domainOf peers holder = some domain ∧ 0 < capacityOf t holder := by
  obtain ⟨found, hfound, hspec⟩ := previousHolder_eq t domain fun node => hprevious.isSome
  rw [chooseHolder, hfound, ok_bind]
  cases found with
  | some node => exact ⟨node, rfl, hspec node rfl⟩
  | none =>
    obtain ⟨holder, hholder⟩ : ∃ holder, maxByKey (fun node => toLex (capacityOf t node, node))
        nodes = some holder := by
      cases nodes with
      | nil => exact absurd rfl hne
      | cons node nodes => exact ⟨_, rfl⟩
    have hinj : ∀ x ∈ nodes, ∀ y ∈ nodes,
        toLex (capacityOf t x, x) = toLex (capacityOf t y, y) → x = y :=
      fun x _ y _ heq => (Prod.mk.inj (toLex_inj.mp heq)).2
    have hmem := ((maxByKey_eq_some hinj).mp hholder).1
    refine ⟨holder, ?_, hroom holder hmem⟩
    exact bind_eq_ok.mpr ⟨nodes, expect_eq_ok.mpr hnodes, okOr_eq_ok.mpr hholder⟩

/-- One domain gives up one shard. -/
lemma takeHolder_eq :
    ∃ holder t',
      takeHolder peers domains previous (t, holders) domain = .ok (t', holders ++ [holder]) ∧
      domainOf peers holder = some domain ∧ Debits t [holder] t' := by
  obtain ⟨holder, hholder, hdomain, hpos⟩ := chooseHolder_eq hprevious hnodes hne hroom
  obtain ⟨available, havailable⟩ : ∃ available, t.get holder = some available := by
    cases hget : t.get holder with
    | some available => exact ⟨available, rfl⟩
    | none =>
      rw [capacityOf, hget] at hpos
      exact absurd hpos (lt_irrefl _)
  rw [capacityOf, havailable, Option.getD_some, Fin.lt_def] at hpos
  have hbound : available.val - 1 < 2 ^ 64 := by omega
  have hleft : (uncheckedSub available 1 : Outcome CodingLaneError U64) =
      .ok ⟨available.val - 1, hbound⟩ := uncheckedSub_eq_ok.mpr ⟨hpos, rfl⟩
  refine ⟨holder, t.put holder ⟨available.val - 1, hbound⟩, ?_, hdomain, .put havailable ?_⟩
  · rw [takeHolder, hholder, ok_bind, havailable]
    dsimp only [okOr]
    rw [ok_bind, hleft]
    rfl
  · exact (Nat.sub_add_cancel hpos).symm

end

/-- **One shard of every domain**, each from a domain of its own. -/
lemma takeHolders_eq {chosen : List String} (hchosen : chosen.Nodup)
    (hopen : ∀ d ∈ chosen, ∃ nodes, domains.get d = some nodes ∧ nodes ≠ [] ∧
      ∀ node ∈ nodes, domainOf peers node = some d ∧ 0 < capacityOf t node) :
    ∃ taken t', chosen.foldlM (takeHolder peers domains previous) (t, holders) =
        .ok (t', holders ++ taken) ∧
      taken.map (domainOf peers) = chosen.map some ∧ Debits t taken t' := by
  induction chosen generalizing t holders with
  | nil => exact ⟨[], t, by rw [append_nil]; rfl, rfl, .refl t⟩
  | cons d chosen ih =>
    obtain ⟨hd, hchosen⟩ := nodup_cons.mp hchosen
    obtain ⟨nodes, hnodes, hne, hroom⟩ := hopen d mem_cons_self
    obtain ⟨holder, t', htake, hdomain, hdebit⟩ := takeHolder_eq hprevious hnodes hne hroom
    have hopen' : ∀ e ∈ chosen, ∃ nodes, domains.get e = some nodes ∧ nodes ≠ [] ∧
        ∀ node ∈ nodes, domainOf peers node = some e ∧ 0 < capacityOf t' node := by
      intro e he
      obtain ⟨nodes, hnodes, hne, hroom⟩ := hopen e (mem_cons_of_mem _ he)
      refine ⟨nodes, hnodes, hne, fun node hnode => ⟨(hroom node hnode).1, ?_⟩⟩
      -- the holder is in the domain `d`, this node is not
      have hother : node ≠ holder := by
        rintro rfl
        have hsame := (hroom node hnode).1.symm.trans hdomain
        exact hd (Option.some.inj hsame ▸ he)
      have hcount := hdebit.room node
      rw [count_singleton, if_neg (by simpa using hother.symm), Nat.add_zero] at hcount
      have hpos := Fin.lt_def.mp (hroom node hnode).2
      rw [roomIn, roomIn] at hcount
      rw [Fin.lt_def, ← hcount]
      exact hpos
    obtain ⟨taken, t'', hrest, hdomains, hdebits⟩ := ih hchosen hopen'
    refine ⟨holder :: taken, t'', ?_, ?_, hdebit.trans hdebits⟩
    · rw [foldlM_cons, htake, ok_bind, hrest, append_assoc]
      rfl
    · rw [map_cons, hdomain, hdomains, map_cons]

end

end Holders

/-! ## A lane -/

section Lane

variable {C : Crypto} {guildId : Bytes 32} {peers : List GuildPeer} {remaining : Table NodeId U64}
  {ordinal lanes : ℕ} {previous : Option PackedLanePlacement} {parityShards size : U64}

/-- What a lane does. -/
structure LaneStep (peers : List GuildPeer) (lanes : ℕ) (parityShards size : U64)
    (t : Table NodeId U64) (placement : PackedLanePlacement) (t' : Table NodeId U64) : Prop where
  information : placement.information.length = size.val
  parity : placement.parity.length = parityShards.val
  /-- The holders are in different domains, and no other domain has more room for the lanes that
  are left. -/
  domains : ∃ chosen : List String, chosen.Nodup ∧
    placement.holders.map (domainOf peers) = chosen.map some ∧
    ∀ a ∈ chosen, ∀ b ∉ chosen, min (domainRoom peers (roomIn t) b) lanes ≤
      min (domainRoom peers (roomIn t) a) lanes
  debits : Debits t placement.holders t'

/-- The first entries of the ranking have the most room. -/
lemma Ranking.take_largest {ranked : List RankedDomain} (h : Ranking peers remaining lanes ranked)
    {n : ℕ} {a b : String} (ha : a ∈ (ranked.take n).map RankedDomain.domain)
    (hb : b ∉ (ranked.take n).map RankedDomain.domain) :
    min (domainRoom peers (roomIn remaining) b) lanes ≤
      min (domainRoom peers (roomIn remaining) a) lanes := by
  by_cases hroom : 0 < domainRoom peers (roomIn remaining) b
  · obtain ⟨ra, hra, rfl⟩ := mem_map.mp ha
    obtain ⟨rb, hrb, rfl⟩ := mem_map.mp ((h.mem b).mpr hroom)
    have hdrop : rb ∈ ranked.drop n := by
      rw [← take_append_drop n ranked] at hrb
      rcases mem_append.mp hrb with htake | hdrop
      · exact absurd (mem_map_of_mem htake) hb
      · exact hdrop
    have hsplit := h.largest
    rw [← take_append_drop n ranked] at hsplit
    have hle := (pairwise_append.mp hsplit).2.2 ra hra rb hdrop
    rwa [h.capacity ra (mem_of_mem_take hra), h.capacity rb (mem_of_mem_drop hdrop)] at hle
  · rw [Nat.eq_zero_of_not_pos hroom, Nat.zero_min]
    exact Nat.zero_le _

section

variable (hids : DistinctNodes peers)

include hids

/-- **A lane**: it makes a step, or there are too few domains with room. -/
lemma planLane_cases (hprevious : PreviousSound peers previous) (hfits : RoomFits peers remaining)
    (hsize : size.val + parityShards.val < 2 ^ 64) :
    (∃ placement t', planLane C guildId peers parityShards ordinal lanes previous remaining size =
        .ok (placement, t') ∧
      LaneStep peers lanes parityShards size remaining placement t') ∨
    (planLane C guildId peers parityShards ordinal lanes previous remaining size =
        fail .capacityCannotSatisfy ∧
      ∀ s : Finset String, (∀ d ∈ s, 0 < domainRoom peers (roomIn remaining) d) →
        s.card < size.val + parityShards.val) := by
  have hcount : (uncheckedAdd size parityShards : Outcome CodingLaneError U64) =
      .ok ⟨size.val + parityShards.val, hsize⟩ := uncheckedAdd_eq_ok.mpr rfl
  obtain ⟨ranked, hranked, hranking⟩ := rankDomains_of_fits (C := C) hids hfits
  rw [planLane, hcount, ok_bind, hranked, ok_bind]
  dsimp only
  by_cases hfew : ranked.length < size.val + parityShards.val
  · refine .inr ⟨by rw [reject, if_pos hfew]; rfl, fun s hs => ?_⟩
    have hsub : s ⊆ (ranked.map RankedDomain.domain).toFinset := fun d hd =>
      mem_toFinset.mpr ((hranking.mem d).mpr (hs d hd))
    have hcard := Finset.card_le_card hsub
    rw [toFinset_card_of_nodup hranking.nodup, length_map] at hcard
    omega
  · left
    rw [reject, if_neg hfew]
    rw [ok_bind]
    obtain ⟨chosen, hchosen⟩ : ∃ chosen, chosen = orderDomains peers previous
        (((ranked.take (size.val + parityShards.val)).map RankedDomain.domain).insertionSort
          (· ≤ ·)) := ⟨_, rfl⟩
    have htop : ((ranked.take (size.val + parityShards.val)).map RankedDomain.domain).Nodup :=
      hranking.nodup.sublist ((take_sublist _ _).map _)
    have hsort := perm_insertionSort (· ≤ ·)
      ((ranked.take (size.val + parityShards.val)).map RankedDomain.domain)
    have hperm :
        chosen.Perm ((ranked.take (size.val + parityShards.val)).map RankedDomain.domain) :=
      hchosen ▸ (orderDomains_perm hprevious.nodup (hsort.nodup_iff.mpr htop)).trans hsort
    have hopen : ∀ d ∈ chosen, ∃ nodes, (openDomains peers remaining).get d = some nodes ∧
        nodes ≠ [] ∧
        ∀ node ∈ nodes, domainOf peers node = some d ∧ 0 < capacityOf remaining node := by
      intro d hd
      have hmem : d ∈ ranked.map RankedDomain.domain :=
        ((take_sublist _ _).map _).subset (hperm.mem_iff.mp hd)
      exact exists_openNodes hids ((hranking.mem d).mp hmem)
    obtain ⟨taken, t', htaken, hdomains, hdebits⟩ :=
      takeHolders_eq hprevious (hperm.nodup_iff.mpr htop) hopen
    have hlength : taken.length = size.val + parityShards.val := by
      have hmap := congrArg List.length hdomains
      rw [length_map, length_map, hperm.length_eq, length_map, length_take] at hmap
      omega
    rw [← hchosen, htaken, nil_append, ok_bind]
    dsimp only
    rw [if_pos (by omega : size.val ≤ taken.length)]
    have hholders : taken.take size.val ++ taken.drop size.val = taken := take_append_drop _ _
    refine ⟨_, t', rfl, ?_, ?_, ⟨chosen, hperm.nodup_iff.mpr htop, ?_, fun a ha b hb => ?_⟩, ?_⟩
    · rw [length_take]
      omega
    · rw [length_drop]
      omega
    · rw [PackedLanePlacement.holders, hholders, hdomains]
    · exact hranking.take_largest (hperm.mem_iff.mp ha) fun h => hb (hperm.mem_iff.mpr h)
    · rw [PackedLanePlacement.holders, hholders]
      exact hdebits

/-- The two sums of a lane, when they do not fit. -/
lemma planLane_overflow (h : 2 ^ 64 ≤ size.val + parityShards.val ∨ ¬ RoomFits peers remaining) :
    planLane C guildId peers parityShards ordinal lanes previous remaining size =
      .error .overflow := by
  by_cases hsize : size.val + parityShards.val < 2 ^ 64
  · have hcount : (uncheckedAdd size parityShards : Outcome CodingLaneError U64) =
        .ok ⟨size.val + parityShards.val, hsize⟩ := uncheckedAdd_eq_ok.mpr rfl
    rw [planLane, hcount, ok_bind, rankDomains_overflow hids (h.resolve_left (not_le.mpr hsize))]
    rfl
  · rw [planLane, uncheckedAdd_eq_overflow.mpr (not_lt.mp hsize)]
    rfl

variable {t' : Table NodeId U64}

/-- Whatever a lane returns is a step. -/
lemma LaneStep.of_planLane (hprevious : PreviousSound peers previous)
    {placement : PackedLanePlacement}
    (h : planLane C guildId peers parityShards ordinal lanes previous remaining size =
      .ok (placement, t')) :
    size.val + parityShards.val < 2 ^ 64 ∧ RoomFits peers remaining ∧
      LaneStep peers lanes parityShards size remaining placement t' := by
  by_cases hover : 2 ^ 64 ≤ size.val + parityShards.val ∨ ¬ RoomFits peers remaining
  · rw [planLane_overflow hids hover] at h
    cases h
  · obtain ⟨hsize, hfits⟩ := not_or.mp hover
    rw [not_le] at hsize
    rw [not_not] at hfits
    refine ⟨hsize, hfits, ?_⟩
    rcases planLane_cases (C := C) hids hprevious hfits hsize with ⟨p, t, hok, hstep⟩ | ⟨hfail, -⟩
    · rw [hok] at h
      cases h
      exact hstep
    · rw [hfail] at h
      cases h

end

variable {t : Table NodeId U64}

lemma LaneStep.previousSound {placement : PackedLanePlacement}
    (h : LaneStep peers lanes parityShards size t placement t') :
    PreviousSound peers (some placement) := by
  rintro p ⟨⟩
  obtain ⟨chosen, hnodup, hchosen, -⟩ := h.domains
  exact ⟨chosen, hnodup, hchosen⟩

lemma RoomFits.mono (hfits : RoomFits peers t) (h : ∀ node, roomIn t' node ≤ roomIn t node) :
    RoomFits peers t' :=
  fun domain => (domainRoom_mono h).trans_lt (hfits domain)

lemma Debits.roomFits {holders : List NodeId} (h : Debits t holders t') (hfits : RoomFits peers t) :
    RoomFits peers t' := by
  refine hfits.mono fun node => ?_
  have := h.room node
  omega

/-- The domains of a step spend the room. -/
lemma domainRoom_spend (hids : DistinctNodes peers) {room room' : NodeId → ℕ}
    {holders : List NodeId} {chosen : List String} (hnodup : chosen.Nodup)
    (hchosen : holders.map (domainOf peers) = chosen.map some)
    (h : ∀ node, room node = room' node + holders.count node) :
    domainRoom peers room' = spend (domainRoom peers room) chosen.toFinset := by
  funext d
  have hadd := domainRoom_eq_add hids h d
  rw [hchosen, count_map_of_injective _ _ (Option.some_injective _), hnodup.count] at hadd
  by_cases hd : d ∈ chosen
  · rw [if_pos hd] at hadd
    rw [spend_of_mem (mem_toFinset.mpr hd)]
    omega
  · rw [if_neg hd] at hadd
    rw [spend_of_notMem (fun h => hd (mem_toFinset.mp h))]
    omega

end Lane

end MutualBackup

import Mathlib.Data.List.Chain
import MutualBackup.Core.CheckpointSectors
import MutualBackup.Node.Transition

/-!
# Checkpoints of the first format survive two losses

A checkpoint of format three carries its own coding: every sector a revision refers to is an
information role of some group of five roles, any three of which recover the rest.  Validation
fills a set of information sectors and a set of covered ones while it goes through the groups, and
a set of failure domains in each; it compares the covered sectors with the referenced ones at the
end.  Here is what the sets amount to: a referenced sector is in exactly one group (`Entered`),
and the roles of a group are in five different domains (`Spread`), so that two domains take at
most two of them.

The revisions themselves form chains: each names the hash of the one before, from the tombstone of
its root or from the first on (`Linked`).
-/

namespace MutualBackup

open Framework List

/-- The information role that a role is, if it is one. -/
def ShardRole.information? : ShardRole → Option InformationRole
  | .information role => some role
  | .parity _ => none

/-- The information roles of a group. -/
def CodingGroup.information (g : CodingGroup) : List InformationRole :=
  g.roles.toList.filterMap ShardRole.information?

/-- The sectors of the information roles of a group. -/
def CodingGroup.informationIds (g : CodingGroup) : List (Bytes 32) :=
  g.information.map fun role => role.sector.id

namespace GuildCheckpoint

variable {C : Crypto} {c : GuildCheckpoint} {scan : RevisionScan}

/-! ## Domains -/

/-- The roles of a group that are left when two failure domains are lost. -/
def rolesOutside (c : GuildCheckpoint) (g : CodingGroup) (lost lost' : String) : List ShardRole :=
  g.roles.toList.filter fun role =>
    isSomeAnd (c.failureDomain (roleNode role)) fun domain => domain ≠ lost ∧ domain ≠ lost'

/-- The roles of a group are in different failure domains. -/
def Spread (c : GuildCheckpoint) (g : CodingGroup) : Prop :=
  ∃ domains : List String, domains.Nodup ∧
    (g.roles.toList.map fun role => c.failureDomain (roleNode role)) = domains.map some

/-- Of different things, those in a list are no more than the list is long. -/
lemma length_le_length_filter_add {α : Type} [DecidableEq α] {xs : List α} (h : xs.Nodup)
    (lost : List α) : xs.length ≤ (xs.filter fun x => x ∉ lost).length + lost.length := by
  have hlost : (xs.filter fun x => x ∈ lost).length ≤ lost.length := by
    refine (subperm_of_subset (h.filter _) ?_).length_le
    intro x hx
    simpa using (mem_filter.mp hx).2
  have hsplit := length_eq_length_filter_add (l := xs) (fun x => decide (x ∉ lost))
  simp only [decide_not, Bool.not_not] at hsplit hlost ⊢
  omega

/-- Two domains take at most two of five roles. -/
lemma Spread.three_le {g : CodingGroup} (h : c.Spread g) (lost lost' : String) :
    3 ≤ (c.rolesOutside g lost lost').length := by
  obtain ⟨domains, hnodup, hdomains⟩ := h
  have hfive : domains.length = 5 := by
    have hlength := congrArg List.length hdomains
    rw [length_map, length_map, g.roles.toList_length] at hlength
    exact hlength.symm
  have hleft : (c.rolesOutside g lost lost').length =
      (domains.filter fun domain => domain ∉ [lost, lost']).length := by
    have houtside := congrArg (List.filter fun domain : Option String =>
      isSomeAnd domain fun domain => domain ≠ lost ∧ domain ≠ lost') hdomains
    rw [filter_map, filter_map] at houtside
    have hlength := congrArg List.length houtside
    rw [length_map, length_map] at hlength
    refine hlength.trans (congrArg List.length (filter_congr ?_))
    intro domain _
    simp [isSomeAnd]
  have hcount := length_le_length_filter_add hnodup [lost, lost']
  rw [hleft]
  simp only [length_cons, length_nil] at hcount
  omega

/-! ## Groups -/

/-- What the loops know after some information roles: their sectors are different, a sector that a
revision refers to has the owner and the reference of its role, and only sectors of roles are
covered. -/
structure Entered (scan : RevisionScan) (roles : List InformationRole)
    (informationIds covered : List (Bytes 32)) : Prop where
  mem_iff : ∀ id, id ∈ informationIds ↔ id ∈ roles.map fun role => role.sector.id
  nodup : (roles.map fun role => role.sector.id).Nodup
  agrees : ∀ role ∈ roles, ∀ use ∈ scan.sectors.lookup role.sector.id,
    use = (role.owner, role.sector)
  covered : ∀ id ∈ covered, id ∈ informationIds

lemma entered_nil : Entered scan [] [] [] := ⟨by simp, by simp, by simp, by simp⟩

/-- An information role that passes enters its own sector. -/
lemma Entered.coverSector {roles : List InformationRole} {state state' : RoleScan}
    (h : Entered scan roles state.informationIds state.covered) {role : InformationRole}
    (hstep : coverSector scan state role = .ok state') :
    Entered scan (roles ++ [role]) state'.informationIds state'.covered ∧
      state'.usedDomains = state.usedDomains := by
  rw [GuildCheckpoint.coverSector] at hstep
  simp only [bind_eq_ok, reject_eq_ok, exists_unit] at hstep
  obtain ⟨hnew, hcases⟩ := hstep
  have hmem : ∀ id, id ∈ role.sector.id :: state.informationIds ↔
      id ∈ (roles ++ [role]).map fun role => role.sector.id := by
    intro id
    rw [mem_cons, h.mem_iff, map_append, mem_append, or_comm]
    simp
  have hnodup : ((roles ++ [role]).map fun role => role.sector.id).Nodup := by
    rw [map_append, nodup_append]
    refine ⟨h.nodup, by simp, ?_⟩
    rintro id hid _ hlast rfl
    rw [map_singleton, mem_singleton] at hlast
    exact hnew ((h.mem_iff _).mpr (hlast ▸ hid))
  have hagrees : (∀ use ∈ scan.sectors.lookup role.sector.id, use = (role.owner, role.sector)) →
      ∀ role' ∈ roles ++ [role], ∀ use ∈ scan.sectors.lookup role'.sector.id,
        use = (role'.owner, role'.sector) := by
    intro hrole role' hrole'
    rcases mem_append.mp hrole' with hrole' | hrole'
    · exact h.agrees role' hrole'
    · rw [mem_singleton.mp hrole']
      exact hrole
  have hcovered : ∀ id ∈ state.covered, id ∈ role.sector.id :: state.informationIds :=
    fun id hid => mem_cons_of_mem _ (h.covered id hid)
  cases huse : scan.sectors.lookup role.sector.id with
  | none =>
    rw [huse] at hcases
    obtain rfl := pure_eq_ok.mp hcases
    exact ⟨⟨hmem, hnodup, hagrees (by simp [huse]), hcovered⟩, rfl⟩
  | some use =>
    obtain ⟨owner, reference⟩ := use
    rw [huse] at hcases
    simp only [bind_eq_ok, reject_eq_ok, exists_unit, pure_eq_ok, not_or, not_not] at hcases
    obtain ⟨⟨rfl, rfl, -⟩, rfl⟩ := hcases
    refine ⟨⟨hmem, hnodup, hagrees ?_, ?_⟩, rfl⟩
    · intro use hsome
      rw [huse] at hsome
      exact (Option.some.inj hsome).symm
    · exact forall_mem_cons.mpr ⟨mem_cons_self, hcovered⟩

/-- What the loop over the roles of a group knows: what was entered, and that the domains so far
are different. -/
structure Placed (c : GuildCheckpoint) (scan : RevisionScan) (entered : List InformationRole)
    (roles : List ShardRole) (state : RoleScan) : Prop where
  entered : Entered scan (entered ++ roles.filterMap ShardRole.information?) state.informationIds
    state.covered
  domains : (roles.map fun role => c.failureDomain (roleNode role)) =
    state.usedDomains.reverse.map some
  nodup : state.usedDomains.Nodup

lemma Placed.checkRole {entered : List InformationRole} {roles : List ShardRole}
    {state state' : RoleScan} (h : Placed c scan entered roles state) {entry : ShardRole × ℕ}
    (hstep : c.checkRole scan state entry = .ok state') :
    Placed c scan entered (roles ++ [entry.1]) state' := by
  rw [GuildCheckpoint.checkRole] at hstep
  simp only [bind_eq_ok, reject_eq_ok, exists_unit, okOr_eq_ok, pure_eq_ok] at hstep
  obtain ⟨-, state₁, henter, domain, hdomain, hfresh, rfl⟩ := hstep
  have henter : Entered scan
      (entered ++ (roles ++ [entry.1]).filterMap ShardRole.information?) state₁.informationIds
        state₁.covered ∧ state₁.usedDomains = state.usedDomains := by
    rw [filterMap_append, ← append_assoc]
    cases hrole : entry.1 with
    | information role =>
      rw [hrole] at henter
      exact h.entered.coverSector henter
    | parity role =>
      rw [hrole] at henter
      obtain rfl := pure_eq_ok.mp henter
      have hnone : List.filterMap ShardRole.information? [.parity role] = [] := rfl
      rw [hnone, append_nil]
      exact ⟨h.entered, rfl⟩
  obtain ⟨hentered, hused⟩ := henter
  rw [hused] at hfresh
  refine ⟨hentered, ?_, ?_⟩
  · rw [map_append, h.domains, hused]
    simp [hdomain]
  · rw [hused]
    exact nodup_cons.mpr ⟨hfresh, h.nodup⟩

/-- `validate_group` enters the information roles of the group, which it finds spread. -/
lemma Entered.checkGroup {roles : List InformationRole} {state state' : GroupScan}
    (h : Entered scan roles state.informationIds state.covered) {group : CodingGroup}
    (hstep : c.checkGroup C scan state group = .ok state') :
    Entered scan (roles ++ group.information) state'.informationIds state'.covered ∧
      c.Spread group := by
  rw [GuildCheckpoint.checkGroup, validateGroup] at hstep
  simp only [bind_eq_ok, reject_eq_ok, exists_unit, pure_eq_ok] at hstep
  obtain ⟨-, -, -, final, hroles, -, rfl⟩ := hstep
  have hplaced : Placed c scan roles (group.roles.toList.zipIdx.map Prod.fst) final := by
    refine replay_history (P := fun before s => Placed c scan roles (before.map Prod.fst) s) ?_ ?_
      hroles
    · exact ⟨by simpa using h, rfl, nodup_nil⟩
    · intro before s entry t hs ht
      rw [map_append]
      exact hs.checkRole ht
  rw [zipIdx_map_fst] at hplaced
  exact ⟨hplaced.entered, final.usedDomains.reverse, nodup_reverse.mpr hplaced.nodup,
    hplaced.domains⟩

/-- The group loop: the information roles of all groups are entered, and every group is spread. -/
lemma entered_of_checkGroups {state : GroupScan}
    (h : replay (c.checkGroup C scan) ⟨none, [], []⟩ c.codingGroups = .ok state) :
    Entered scan (c.codingGroups.flatMap CodingGroup.information) state.informationIds
      state.covered ∧ ∀ group ∈ c.codingGroups, c.Spread group := by
  refine replay_history (P := fun before (s : GroupScan) =>
    Entered scan (before.flatMap CodingGroup.information) s.informationIds s.covered ∧
      ∀ group ∈ before, c.Spread group) ⟨entered_nil, by simp⟩ ?_ h
  rintro before s group t ⟨hentered, hspread⟩ ht
  obtain ⟨hnext, hgroup⟩ := hentered.checkGroup ht
  rw [flatMap_append, flatMap_singleton]
  refine ⟨hnext, ?_⟩
  intro group' hgroup'
  rcases mem_append.mp hgroup' with hbefore | hlast
  · exact hspread group' hbefore
  · rw [mem_singleton.mp hlast]
    exact hgroup

/-! ## Chains -/

/-- A revision has the number after another and names its hash. -/
def FollowsRevision (C : Crypto) (r r' : UserRevision) : Prop :=
  r'.sequence.val = r.sequence.val + 1 ∧ ∃ hash, r.hash C = .ok hash ∧ r'.parent = some hash

/-- The first revision that is kept of a chain: the one after the tombstone, or the first of
all. -/
def StartsChain : Option RevisionTombstone → UserRevision → Prop
  | some t, r => r.sequence.val = t.throughSequence.val + 1 ∧ r.parent = some t.lastRevisionHash
  | none, r => r.sequence = 1 ∧ r.parent = none

/-- The revisions of a chain, in the order of the checkpoint. -/
def revisionChain (revisions : List (SignedRecord UserRevision)) (chain : NodeId × Uuid) :
    List UserRevision :=
  (revisions.map SignedRecord.value).filter fun r => chainOf r = chain

/-- What the revision loop knows about the chains: their revisions follow one another, and the head
has the number and the hash of the last. -/
structure Linked (C : Crypto) (c : GuildCheckpoint) (before : List (SignedRecord UserRevision))
    (scan : RevisionScan) (chain : NodeId × Uuid) : Prop where
  follows : (revisionChain before chain).IsChain (FollowsRevision C)
  starts : ∀ r ∈ (revisionChain before chain).head?, StartsChain (c.tombstone chain.1 chain.2) r
  first : scan.heads.lookup chain = none → revisionChain before chain = []
  last : ∀ head ∈ scan.heads.lookup chain, ∃ r ∈ (revisionChain before chain).getLast?,
    r.sequence = head.sequence ∧ r.hash C = .ok head.hash

lemma linked_nil (chain : NodeId × Uuid) : Linked C c [] .empty chain := by
  refine ⟨isChain_nil, by simp [revisionChain], fun _ => rfl, ?_⟩
  intro head hhead
  simp [RevisionScan.empty] at hhead

lemma revisionChain_append_self (before : List (SignedRecord UserRevision))
    (revision : SignedRecord UserRevision) :
    revisionChain (before ++ [revision]) (chainOf revision.value) =
      revisionChain before (chainOf revision.value) ++ [revision.value] := by
  simp [revisionChain]

variable {before : List (SignedRecord UserRevision)}

lemma revisionChain_append_of_ne {revision : SignedRecord UserRevision} {chain : NodeId × Uuid}
    (h : chainOf revision.value ≠ chain) :
    revisionChain (before ++ [revision]) chain = revisionChain before chain := by
  simp [revisionChain, h]

/-- A revision that extends its chain starts it or follows its last revision. -/
lemma Linked.next {r : UserRevision} (h : Linked C c before scan (chainOf r))
    (hextends : extendsChain (scan.heads.lookup (chainOf r))
      (c.tombstone r.owner r.protectedRootId) r) :
    (revisionChain before (chainOf r) = [] ∧
        StartsChain (c.tombstone r.owner r.protectedRootId) r) ∨
      ∃ last ∈ (revisionChain before (chainOf r)).getLast?, FollowsRevision C last r := by
  cases hhead : scan.heads.lookup (chainOf r) with
  | some head =>
    rw [hhead] at hextends
    obtain ⟨hsucc, hparent, -⟩ := hextends
    obtain ⟨last, hlast, hsequence, hhash⟩ := h.last head hhead
    refine .inr ⟨last, hlast, ?_, head.hash, hhash, hparent⟩
    rw [hsequence]
    exact U64.checkedSucc_eq_some.mp hsucc
  | none =>
    rw [hhead] at hextends
    refine .inl ⟨h.first hhead, ?_⟩
    cases htombstone : c.tombstone r.owner r.protectedRootId with
    | none =>
      rw [htombstone] at hextends
      exact hextends
    | some t =>
      rw [htombstone] at hextends
      exact ⟨U64.checkedSucc_eq_some.mp hextends.1, hextends.2⟩

lemma Linked.step {scan' : RevisionScan} (h : ∀ chain, Linked C c before scan chain)
    {revision : SignedRecord UserRevision} (hstep : c.checkRevision C scan revision = .ok scan')
    (chain : NodeId × Uuid) : Linked C c (before ++ [revision]) scan' chain := by
  obtain ⟨-, hextends, scan₁, hash, -, hhash, rfl⟩ := checkRevision_eq_ok hstep
  by_cases hchain : chainOf revision.value = chain
  · subst hchain
    have hprevious := h (chainOf revision.value)
    have hnext := hprevious.next hextends
    have hhead : AList.lookup (chainOf revision.value) (scan.heads.insert (chainOf revision.value)
        ⟨revision.value.sequence, hash, revision.value.writerEpoch⟩) =
          some ⟨revision.value.sequence, hash, revision.value.writerEpoch⟩ := AList.lookup_insert _
    refine ⟨?_, ?_, ?_, ?_⟩
    · rw [revisionChain_append_self, isChain_append]
      refine ⟨hprevious.follows, isChain_singleton _, ?_⟩
      intro x hx y hy
      obtain rfl := Option.some.inj hy
      rcases hnext with ⟨hempty, -⟩ | ⟨last, hlast, hfollows⟩
      · rw [hempty] at hx
        cases hx
      · obtain rfl := Option.some.inj (hx.symm.trans hlast)
        exact hfollows
    · rw [revisionChain_append_self]
      rcases hnext with ⟨hempty, hstarts⟩ | ⟨last, hlast, -⟩
      · rw [hempty]
        intro r hr
        obtain rfl := Option.some.inj hr
        exact hstarts
      · have hne : revisionChain before (chainOf revision.value) ≠ [] := by
          intro hempty
          rw [hempty] at hlast
          cases hlast
        rw [head?_append_of_ne_nil _ hne]
        exact hprevious.starts
    · intro hnone
      cases hhead.symm.trans hnone
    · intro head hsome
      obtain rfl := Option.some.inj (hhead.symm.trans hsome)
      rw [revisionChain_append_self]
      exact ⟨revision.value, by simp, rfl, hhash⟩
  · have hheads : AList.lookup chain (scan.heads.insert (chainOf revision.value)
        ⟨revision.value.sequence, hash, revision.value.writerEpoch⟩) = scan.heads.lookup chain :=
      AList.lookup_insert_ne (Ne.symm hchain)
    have hsame : revisionChain (before ++ [revision]) chain = revisionChain before chain :=
      revisionChain_append_of_ne hchain
    obtain ⟨hfollows, hstarts, hfirst, hlast⟩ := h chain
    refine ⟨?_, ?_, ?_, ?_⟩
    · rwa [hsame]
    · rwa [hsame]
    · rw [hsame]
      exact fun hnone => hfirst (hheads.symm.trans hnone)
    · rw [hsame]
      exact fun head hsome => hlast head (hheads.symm.trans hsome)

/-! ## The whole -/

/-- The group that has a sector is the only one. -/
lemma Entered.eq_of_sector {groups : List CodingGroup} {ids covered : List (Bytes 32)}
    (h : Entered scan (groups.flatMap CodingGroup.information) ids covered) {g g' : CodingGroup}
    (hg : g ∈ groups) (hg' : g' ∈ groups) {id : Bytes 32} (hid : id ∈ g.informationIds)
    (hid' : id ∈ g'.informationIds) : g = g' := by
  have hnodup := h.nodup
  rw [map_flatMap] at hnodup
  have hdisjoint : groups.Pairwise (Function.onFun Disjoint CodingGroup.informationIds) :=
    (nodup_flatMap.mp hnodup).2
  by_contra hne
  have hsymm : Std.Symm (Function.onFun Disjoint CodingGroup.informationIds) :=
    ⟨fun _ _ hxy => List.Disjoint.symm hxy⟩
  exact hdisjoint.forall hg hg' hne hid hid'

/-- **A checkpoint of format three survives the loss of any two failure domains.**  Every sector
that a revision refers to is an information role of one group only, with its owner and reference,
and three roles of the group are left; no sector is in the groups twice; and the revisions of a
root follow one another from the first, or from the tombstone. -/
theorem survives_two_domain_losses (C : Crypto) (c : GuildCheckpoint)
    (hversion : c.formatVersion = 3) (h : c.validate C = .ok ()) :
    (∀ revision ∈ c.revisions, ∀ sector ∈ revision.value.metadataSectors ++
        revision.value.dataSectors, ∃ group ∈ c.codingGroups,
      (⟨revision.value.owner, sector⟩ : InformationRole) ∈ group.information ∧
        (∀ group' ∈ c.codingGroups, sector.id ∈ group'.informationIds → group' = group) ∧
        ∀ lost lost', 3 ≤ (c.rolesOutside group lost lost').length) ∧
      (c.codingGroups.flatMap CodingGroup.informationIds).Nodup ∧
      ∀ chain, (revisionChain c.revisions chain).IsChain (FollowsRevision C) ∧
        ∀ r ∈ (revisionChain c.revisions chain).head?,
          StartsChain (c.tombstone chain.1 chain.2) r := by
  rw [validate] at h
  simp only [bind_eq_ok, reject_eq_ok, exists_unit] at h
  obtain ⟨-, -, -, _, -, -, scan, hrevisions, -, -, -, hgroups⟩ := h
  rw [checkGroups] at hgroups
  simp only [bind_eq_ok, reject_eq_ok] at hgroups
  obtain ⟨state, hloop, hall⟩ := hgroups
  push Not at hall
  have hcovered : ∀ id ∈ scan.sectors.keys, id ∈ state.covered := by
    intro id hid
    exact of_decide_eq_true (all_eq_true.mp (hall hversion).2 id hid)
  have hindexed := indexed_of_checkRevisions hrevisions
  obtain ⟨hentered, hspread⟩ := entered_of_checkGroups hloop
  have hlinked : ∀ chain, Linked C c c.revisions scan chain :=
    replay_history (P := fun before s => ∀ chain, Linked C c before s chain) linked_nil
      (fun _ _ _ _ hbefore hstep => Linked.step hbefore hstep) hrevisions
  refine ⟨?_, ?_, fun chain => ⟨(hlinked chain).follows, (hlinked chain).starts⟩⟩
  · intro revision hrevision sector hsector
    obtain ⟨index, huse⟩ := exists_use hrevision hsector
    have hlookup : scan.sectors.lookup sector.id = some (revision.value.owner, sector) :=
      (hindexed.sectors _ _).mpr (mem_map_of_mem huse)
    have hkey : sector.id ∈ scan.sectors.keys :=
      AList.mem_keys.mpr (AList.lookup_isSome.mp (by rw [hlookup]; rfl))
    -- the sector is covered, so some information role has it, and the role agrees with the use
    have hid := (hentered.mem_iff _).mp (hentered.covered _ (hcovered _ hkey))
    obtain ⟨role, hrole, hroleId⟩ := mem_map.mp hid
    have hagrees := hentered.agrees role hrole _ (by rw [hroleId]; exact hlookup)
    obtain ⟨howner, hreference⟩ := Prod.mk.inj hagrees
    obtain ⟨group, hgroup, hmem⟩ := mem_flatMap.mp hrole
    refine ⟨group, hgroup, ?_, ?_, (hspread group hgroup).three_le⟩
    · rw [howner, hreference]
      exact hmem
    · intro group' hgroup' hid'
      refine hentered.eq_of_sector hgroup' hgroup hid' ?_
      rw [← hroleId]
      exact mem_map_of_mem hmem
  · have hnodup := hentered.nodup
    rwa [map_flatMap] at hnodup

/-- A guild of five in five places, whose first member backs up one sector. -/
def fiveMembers : List Member :=
  [⟨⟨1⟩, ⟨1⟩, "home"⟩, ⟨⟨2⟩, ⟨2⟩, "office"⟩, ⟨⟨3⟩, ⟨3⟩, "school"⟩, ⟨⟨4⟩, ⟨4⟩, "club"⟩,
    ⟨⟨5⟩, ⟨5⟩, "shop"⟩]

def fiveRoles : List.Vector ShardRole 5 :=
  ⟨[.information ⟨⟨1⟩, ⟨12, 13, 1⟩⟩, .information ⟨⟨2⟩, ⟨14, 15, 1⟩⟩,
    .information ⟨⟨3⟩, ⟨16, 17, 1⟩⟩, .parity ⟨⟨4⟩, 0, 18⟩, .parity ⟨⟨5⟩, 1, 19⟩], rfl⟩

def fiveGroup : CodingGroup :=
  let group : CodingGroup := ⟨0, 1, 7, 3, 2, 65536, fiveRoles⟩
  { group with id := (group.calculateId .transparent).toOption.getD 0 }

def fiveCheckpoint : GuildCheckpoint :=
  { firstCheckpoint with
    formatVersion := 3, members := fiveMembers, codingGroups := [fiveGroup], authority := none }

theorem survives_two_domain_losses_five :
    fiveCheckpoint.formatVersion = 3 ∧ fiveCheckpoint.validate .transparent = .ok () ∧
      ∃ group ∈ fiveCheckpoint.codingGroups,
        3 ≤ (fiveCheckpoint.rolesOutside group "home" "shop").length := by
  have hvalid : fiveCheckpoint.validate .transparent = .ok () := by decide +kernel
  obtain ⟨hcover, -, -⟩ := survives_two_domain_losses .transparent fiveCheckpoint rfl hvalid
  obtain ⟨group, hgroup, -, -, hleft⟩ :=
    hcover firstRevision (mem_singleton.mpr rfl) ⟨12, 13, 1⟩ (mem_singleton.mpr rfl)
  exact ⟨rfl, hvalid, group, hgroup, hleft "home" "shop"⟩

end GuildCheckpoint

end MutualBackup

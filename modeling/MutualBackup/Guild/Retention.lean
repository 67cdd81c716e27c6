import MutualBackup.Guild.Agreement

/-!
# Retention of coding groups

A coding group enters the state by an addition, is retired with a window, and may be forgotten once
the window has passed.  Seen from one identifier the state is a small automaton (`GroupStep`):
absent, retained without a window, retained with one.  `groupStep_of_applyEvent` is the refinement:
every accepted event makes one step of the automaton of every identifier, and the events of
members, quorum, keys and other groups make the idle one.

What a run does to a group that it does not forget is then read off the automaton
(`passes_of_applyEvents`): nothing, or one retirement.  `coding_group_retention` puts the two
together for whole runs.
-/

namespace MutualBackup

open Framework

section

variable (kind : GuildEventKind)

/-- The event adds this group, bound to a transcript or not. -/
def GuildEventKind.Adds (group : CodingGroupV2) : Prop :=
  ∃ transcript, kind.codingGroupAdd = some (group, transcript)

/-- The event retires the group with this identifier. -/
def GuildEventKind.Retires (id : Bytes 32) : Prop :=
  ∃ retainThrough, kind = .retireCodingGroup id retainThrough

/-- The event forgets the group with this identifier. -/
def GuildEventKind.Forgets (id : Bytes 32) : Prop :=
  kind = .forgetCodingGroup id

end

namespace DynamicGuildState

/-! ## The automaton of one identifier -/

/-- The entry of an identifier. -/
def groupAt (s : DynamicGuildState) (id : Bytes 32) : Option RetainedCodingGroup :=
  s.codingGroups.find? fun g => g.group.id = id

/-- The entry with its window set. -/
def retiredEntry (entry : RetainedCodingGroup) (retiredAt retainThrough : U64) :
    RetainedCodingGroup :=
  { entry with retiredAtEvent := some retiredAt, retainThroughEvent := some retainThrough }

/-- What an event at a sequence number may do to the entry of an identifier. -/
inductive GroupStep (id : Bytes 32) (sequence : U64) (kind : GuildEventKind) :
    Option RetainedCodingGroup → Option RetainedCodingGroup → Prop
  | add {group : CodingGroupV2} (hadds : kind.Adds group) (hid : group.id = id) :
      GroupStep id sequence kind none (some (newGroup sequence group))
  | retire {entry : RetainedCodingGroup} {retainThrough : U64}
      (hkind : kind = .retireCodingGroup id retainThrough) (hopen : entry.retiredAtEvent = none)
      (hretain : sequence ≤ retainThrough) :
      GroupStep id sequence kind (some entry) (some (retiredEntry entry sequence retainThrough))
  | forget {entry : RetainedCodingGroup} {retained : U64} (hkind : kind.Forgets id)
      (hretained : entry.retainThroughEvent = some retained) (hpast : retained < sequence) :
      GroupStep id sequence kind (some entry) none
  | idle {entry : Option RetainedCodingGroup} (hadds : ∀ group, kind.Adds group → group.id ≠ id)
      (hretires : ¬ kind.Retires id) (hforgets : ¬ kind.Forgets id) :
      GroupStep id sequence kind entry entry

variable {C : Crypto} {s t : DynamicGuildState}

variable {id : Bytes 32} {sequence : U64} {kind : GuildEventKind}

/-- An event that is no group event is idle for every identifier. -/
lemma groupStep_idle (hadd : kind.codingGroupAdd = none)
    (hretire : ∀ i r, kind ≠ .retireCodingGroup i r) (hforget : ∀ i, kind ≠ .forgetCodingGroup i)
    (entry : Option RetainedCodingGroup) : GroupStep id sequence kind entry entry := by
  refine .idle (fun group hadds => ?_) (fun ⟨r, hr⟩ => hretire id r hr) (hforget id)
  obtain ⟨transcript, h⟩ := hadds
  rw [hadd] at h
  cases h

variable {entry : RetainedCodingGroup}

lemma mem_of_groupAt (hasc : Ascending (fun g => g.group.id) s.codingGroups) :
    s.groupAt id = some entry ↔ entry ∈ s.codingGroups ∧ entry.group.id = id :=
  hasc.find?_eq_some

lemma groupAt_eq_none : s.groupAt id = none ↔ ∀ entry ∈ s.codingGroups, entry.group.id ≠ id := by
  simp [groupAt]

/-- Two ascending vectors agree at an identifier when they have the same entries with it. -/
lemma groupAt_congr (hs : Ascending (fun g => g.group.id) s.codingGroups)
    (ht : Ascending (fun g => g.group.id) t.codingGroups)
    (h : ∀ entry : RetainedCodingGroup, entry.group.id = id →
      (entry ∈ t.codingGroups ↔ entry ∈ s.codingGroups)) : t.groupAt id = s.groupAt id := by
  ext entry
  rw [mem_of_groupAt ht, mem_of_groupAt hs]
  constructor
  · rintro ⟨hmem, hid⟩
    exact ⟨(h entry hid).mp hmem, hid⟩
  · rintro ⟨hmem, hid⟩
    exact ⟨(h entry hid).mpr hmem, hid⟩

variable {group : CodingGroupV2}

/-- The addition of a group, seen from an identifier. -/
lemma groupStep_insert (hadds : kind.Adds group)
    (hasc : Ascending (fun g => g.group.id) s.codingGroups) (hplace : s.Placeable C group)
    (hgroups : t.codingGroups =
      insertByKey (fun entry => entry.group.id) (newGroup sequence group) s.codingGroups) :
    GroupStep id sequence kind (s.groupAt id) (t.groupAt id) := by
  have hasc' : Ascending (fun g => g.group.id) t.codingGroups := by
    rw [hgroups]
    exact hasc.insertByKey hplace.fresh
  by_cases hid : group.id = id
  · have hnone : s.groupAt id = none := groupAt_eq_none.mpr (by rw [← hid]; exact hplace.fresh)
    have hsome : t.groupAt id = some (newGroup sequence group) :=
      (mem_of_groupAt hasc').mpr ⟨by rw [hgroups]; simp, hid⟩
    rw [hnone, hsome]
    exact .add hadds hid
  · have hsame : t.groupAt id = s.groupAt id := by
      refine groupAt_congr hasc hasc' fun entry hentry => ?_
      rw [hgroups, mem_insertByKey]
      constructor
      · rintro (rfl | hmem)
        · exact absurd hentry hid
        · exact hmem
      · exact Or.inr
    obtain ⟨transcript, hkind⟩ := hadds
    rw [hsame]
    refine .idle (fun group' ⟨_, h⟩ => ?_) (fun ⟨r, h⟩ => ?_) fun h => ?_
    · rw [hkind] at h
      cases h
      exact hid
    · rw [h] at hkind
      cases hkind
    · rw [h] at hkind
      cases hkind

section

variable {g : RetainedCodingGroup} (hasc : Ascending (fun g => g.group.id) s.codingGroups)

include hasc

/-- The retirement of a group, seen from an identifier. -/
lemma groupStep_retire {groupId : Bytes 32} {retainThrough : U64}
    (hfind : s.groupAt groupId = some g) (hopen : g.retiredAtEvent = none)
    (hretain : sequence ≤ retainThrough)
    (hgroups : t.codingGroups = modifyFirst (fun g => g.group.id = groupId)
      (fun g => retiredEntry g sequence retainThrough) s.codingGroups) :
    GroupStep id sequence (.retireCodingGroup groupId retainThrough) (s.groupAt id)
      (t.groupAt id) := by
  have hasc' : Ascending (fun g => g.group.id) t.codingGroups := by
    rw [hgroups]
    exact hasc.modifyFirst fun _ => rfl
  have hmem : ∀ y, y ∈ t.codingGroups ↔
      (∃ x ∈ s.codingGroups, x.group.id = groupId ∧ y = retiredEntry x sequence retainThrough) ∨
        (y ∈ s.codingGroups ∧ y.group.id ≠ groupId) := by
    intro y
    rw [hgroups, hasc.mem_modifyFirst (k := groupId) fun x hx => of_decide_eq_true hx]
    simp only [decide_eq_true_eq, ne_eq]
  obtain ⟨hg, hgid⟩ := (mem_of_groupAt hasc).mp hfind
  by_cases hid : groupId = id
  · subst hid
    have hsome : t.groupAt groupId = some (retiredEntry g sequence retainThrough) :=
      (mem_of_groupAt hasc').mpr ⟨(hmem _).mpr (.inl ⟨g, hg, hgid, rfl⟩), hgid⟩
    rw [hfind, hsome]
    exact .retire rfl hopen hretain
  · have hsame : t.groupAt id = s.groupAt id := by
      refine groupAt_congr hasc hasc' fun entry hentry => ?_
      rw [hmem]
      constructor
      · rintro (⟨x, -, hx, rfl⟩ | ⟨h, -⟩)
        · exact absurd (hx.symm.trans hentry) hid
        · exact h
      · intro h
        exact .inr ⟨h, fun heq => hid (heq.symm.trans hentry)⟩
    rw [hsame]
    refine .idle (fun _ ⟨_, h⟩ => ?_) (fun ⟨r, h⟩ => ?_) fun h => ?_
    · cases h
    · cases h
      exact hid rfl
    · cases h

/-- The removal of a group, seen from an identifier. -/
lemma groupStep_forget {groupId : Bytes 32} {retained : U64} (hfind : s.groupAt groupId = some g)
    (hretained : g.retainThroughEvent = some retained) (hpast : retained < sequence)
    (hgroups : t.codingGroups = s.codingGroups.eraseP fun g => g.group.id = groupId) :
    GroupStep id sequence (.forgetCodingGroup groupId) (s.groupAt id) (t.groupAt id) := by
  have hasc' : Ascending (fun g => g.group.id) t.codingGroups := by
    rw [hgroups]
    exact hasc.eraseP
  have hmem : ∀ y, y ∈ t.codingGroups ↔ y ∈ s.codingGroups ∧ y.group.id ≠ groupId := by
    intro y
    rw [hgroups, hasc.mem_eraseP (k := groupId) fun x hx => of_decide_eq_true hx]
    simp only [decide_eq_true_eq, ne_eq]
  by_cases hid : groupId = id
  · subst hid
    have hnone : t.groupAt groupId = none :=
      groupAt_eq_none.mpr fun entry hentry => ((hmem entry).mp hentry).2
    rw [hfind, hnone]
    exact .forget rfl hretained hpast
  · have hsame : t.groupAt id = s.groupAt id := by
      refine groupAt_congr hasc hasc' fun entry hentry => ?_
      rw [hmem]
      exact ⟨And.left, fun h => ⟨h, fun heq => hid (heq.symm.trans hentry)⟩⟩
    rw [hsame]
    refine .idle (fun _ ⟨_, h⟩ => ?_) (fun ⟨r, h⟩ => ?_) fun h => ?_
    · cases h
    · cases h
    · cases h
      exact hid rfl

/-- The effect of an event is a step of the automaton of every identifier. -/
lemma groupStep_of_effect (h : s.Effect C sequence kind t) :
    GroupStep id sequence kind (s.groupAt id) (t.groupAt id) := by
  cases h with
  | addCodingGroup hgroup => exact groupStep_insert ⟨none, rfl⟩ hasc hgroup rfl
  | addCodingGroupBound hgroup => exact groupStep_insert ⟨some _, rfl⟩ hasc hgroup rfl
  | retireCodingGroup hfind hopen hretain => exact groupStep_retire hasc hfind hopen hretain rfl
  | forgetCodingGroup hfind hretained hpast =>
    exact groupStep_forget hasc hfind hretained hpast rfl
  | _ => exact groupStep_idle rfl (fun _ _ h => by cases h) (fun _ h => by cases h) _

end

variable {c : QuorumGuildEvent}

section

variable (h : s.applyEvent C c = .ok t)

include h

/-- **Refinement.** An accepted event makes one step of the automaton of every identifier. -/
lemma groupStep_of_applyEvent (id : Bytes 32) :
    GroupStep id c.event.sequence c.event.kind (s.groupAt id) (t.groupAt id) := by
  obtain ⟨hwf, -, -, changed, head, heffect, -, rfl, -⟩ := applyEvent_eq_ok.mp h
  show GroupStep id c.event.sequence c.event.kind (s.groupAt id) (changed.groupAt id)
  exact groupStep_of_effect hwf.groups_ascending heffect

/-- An accepted addition puts the group in as it is. -/
lemma groupAt_of_adds (hadds : c.event.kind.Adds group) :
    t.groupAt group.id = some (newGroup c.event.sequence group) := by
  have hstep := groupStep_of_applyEvent h group.id
  obtain ⟨transcript, hkind⟩ := hadds
  generalize s.groupAt group.id = old at hstep
  generalize t.groupAt group.id = new at hstep
  cases hstep with
  | add hadds' hid =>
    obtain ⟨_, hkind'⟩ := hadds'
    rw [hkind, Option.some_inj, Prod.mk.injEq] at hkind'
    rw [hkind'.1]
  | retire hretire =>
    rw [hretire] at hkind
    cases hkind
  | forget hforget =>
    rw [hforget] at hkind
    cases hkind
  | idle hnone => exact absurd rfl (hnone group ⟨transcript, hkind⟩)

/-- An accepted removal finds the group with a window that has passed. -/
lemma groupAt_of_forgets (hforgets : c.event.kind.Forgets id) :
    ∃ entry retained, s.groupAt id = some entry ∧ entry.retainThroughEvent = some retained ∧
      retained < c.event.sequence := by
  have hstep := groupStep_of_applyEvent h id
  generalize s.groupAt id = old at hstep
  generalize t.groupAt id = new at hstep
  cases hstep with
  | add hadds =>
    obtain ⟨_, hkind⟩ := hadds
    rw [hforgets] at hkind
    cases hkind
  | retire hretire =>
    rw [hforgets] at hretire
    cases hretire
  | forget _ hretained hpast => exact ⟨_, _, rfl, hretained, hpast⟩
  | idle _ _ hnot => exact absurd hforgets hnot

end

/-! ## Runs that do not forget a group -/

/-- What events that do not forget an identifier do to its entry: nothing, or one retirement of an
entry without a window. -/
def Passes (id : Bytes 32) (events : List GuildEvent) (entry entry' : RetainedCodingGroup) :
    Prop :=
  ((∀ e ∈ events, ¬ e.kind.Retires id) ∧ entry' = entry) ∨
    ∃ before retirement after retainThrough, events = before ++ retirement :: after ∧
      (∀ e ∈ before ++ after, ¬ e.kind.Retires id) ∧
      retirement.kind = .retireCodingGroup id retainThrough ∧
      retirement.sequence ≤ retainThrough ∧ entry.retiredAtEvent = none ∧
      entry' = retiredEntry entry retirement.sequence retainThrough

lemma Passes.cons_idle {e : GuildEvent} {events : List GuildEvent} {entry' : RetainedCodingGroup}
    (he : ¬ e.kind.Retires id) (h : Passes id events entry entry') :
    Passes id (e :: events) entry entry' := by
  rcases h with ⟨hnone, rfl⟩ | ⟨before, r, after, retain, rfl, hrest, hkind, hle, hopen, rfl⟩
  · exact .inl ⟨by simpa using ⟨he, hnone⟩, rfl⟩
  · exact .inr ⟨e :: before, r, after, retain, rfl, by simpa using ⟨he, by simpa using hrest⟩,
      hkind, hle, hopen, rfl⟩

lemma Passes.cons_retire {e : GuildEvent} {events : List GuildEvent} {entry' : RetainedCodingGroup}
    {retainThrough : U64} (hkind : e.kind = .retireCodingGroup id retainThrough)
    (hle : e.sequence ≤ retainThrough) (hopen : entry.retiredAtEvent = none)
    (h : Passes id events (retiredEntry entry e.sequence retainThrough) entry') :
    Passes id (e :: events) entry entry' := by
  rcases h with ⟨hnone, rfl⟩ | ⟨-, -, -, -, -, -, -, -, hopen', -⟩
  · exact .inr ⟨[], e, events, retainThrough, rfl, by simpa using hnone, hkind, hle, hopen, rfl⟩
  · -- a window that is set is not set again
    cases hopen'

lemma passes_of_applyEvents {certs : List QuorumGuildEvent} (h : applyEvents C s certs = .ok t)
    (hkeep : ∀ c ∈ certs, ¬ c.event.kind.Forgets id) (hentry : s.groupAt id = some entry) :
    ∃ entry', t.groupAt id = some entry' ∧
      Passes id (certs.map QuorumGuildEvent.event) entry entry' := by
  induction certs generalizing s entry with
  | nil =>
    rw [← replay_nil.mp h]
    exact ⟨entry, hentry, .inl ⟨by simp, rfl⟩⟩
  | cons c certs ih =>
    obtain ⟨m, hm, hrest⟩ := replay_cons.mp h
    have hkeep' : ∀ d ∈ certs, ¬ d.event.kind.Forgets id :=
      fun d hd => hkeep d (List.mem_cons_of_mem _ hd)
    have hstep := groupStep_of_applyEvent hm id
    rw [hentry] at hstep
    generalize hmid : m.groupAt id = mid at hstep
    cases hstep with
    | retire hkind hopen hretain =>
      obtain ⟨entry', ht, hpass⟩ := ih hrest hkeep' hmid
      exact ⟨entry', ht, hpass.cons_retire hkind hretain hopen⟩
    | forget hkind _ _ => exact absurd hkind (hkeep c List.mem_cons_self)
    | idle _ hretires _ =>
      obtain ⟨entry', ht, hpass⟩ := ih hrest hkeep' hmid
      exact ⟨entry', ht, hpass.cons_idle hretires⟩

/-! ## Retention -/

/-- The only retirement of an identifier among the events, and its window. -/
structure OnlyRetirement (id : Bytes 32) (events : List GuildEvent) (retirement : GuildEvent)
    (retainThrough : U64) : Prop where
  only : ∃ before after, events = before ++ retirement :: after ∧
    ∀ e ∈ before ++ after, ¬ e.kind.Retires id
  kind_eq : retirement.kind = .retireCodingGroup id retainThrough
  sequence_le : retirement.sequence ≤ retainThrough

/-- What a run that accepted `certs` between the states `s` and `t` keeps of coding groups. -/
structure Retention (C : Crypto) (s : DynamicGuildState) (certs : List QuorumGuildEvent)
    (t : DynamicGuildState) : Prop where
  /-- A group that was added and not forgotten is there, as it was added; its window is open, or
  it is the one of the only retirement since. -/
  kept : ∀ before added during group, certs = before ++ added :: during →
    added.event.kind.Adds group → (∀ c ∈ during, ¬ c.event.kind.Forgets group.id) →
    ∃ entry ∈ t.codingGroups, entry.group = group ∧ entry.addedAtEvent = added.event.sequence ∧
      ((entry.retiredAtEvent = none ∧ entry.retainThroughEvent = none ∧
          ∀ c ∈ during, ¬ c.event.kind.Retires group.id) ∨
        ∃ retirement retainThrough,
          OnlyRetirement group.id (during.map QuorumGuildEvent.event) retirement retainThrough ∧
          entry.retiredAtEvent = some retirement.sequence ∧
          entry.retainThroughEvent = some retainThrough)
  /-- A group that was added is first forgotten after its only retirement since, and after the
  window that one set. -/
  forgotten : ∀ before added during forget group,
    certs = before ++ added :: (during ++ [forget]) → added.event.kind.Adds group →
    (∀ c ∈ during, ¬ c.event.kind.Forgets group.id) → forget.event.kind.Forgets group.id →
    ∃ retirement retainThrough,
      OnlyRetirement group.id (during.map QuorumGuildEvent.event) retirement retainThrough ∧
      retainThrough < forget.event.sequence
  /-- An entry whose window is set does not change until it is forgotten. -/
  window : ∀ before during m entry, certs = before ++ during → applyEvents C s before = .ok m →
    entry ∈ m.codingGroups → entry.retainThroughEvent ≠ none →
    (∀ c ∈ during, ¬ c.event.kind.Forgets entry.group.id) → entry ∈ t.codingGroups
  /-- A group that is forgotten was retired, wherever it came from. -/
  retiredFirst : ∀ before forget id, certs = before ++ [forget] → forget.event.kind.Forgets id →
    ∃ m, applyEvents C s before = .ok m ∧ ∃ entry ∈ m.codingGroups, entry.group.id = id ∧
      ∃ retiredAt retainThrough, entry.retiredAtEvent = some retiredAt ∧
        entry.retainThroughEvent = some retainThrough ∧ retiredAt ≤ retainThrough ∧
        retainThrough < forget.event.sequence

/-- The automaton along a run: from the addition of a group to the end of a stretch that does not
forget it. -/
lemma passes_of_added {before during : List QuorumGuildEvent} {added : QuorumGuildEvent}
    (h : applyEvents C s (before ++ added :: during) = .ok t) (hadds : added.event.kind.Adds group)
    (hkeep : ∀ c ∈ during, ¬ c.event.kind.Forgets group.id) :
    ∃ entry, t.groupAt group.id = some entry ∧
      Passes group.id (during.map QuorumGuildEvent.event) (newGroup added.event.sequence group)
        entry := by
  obtain ⟨m, -, hrest⟩ := replay_append.mp h
  obtain ⟨m', hadded, hduring⟩ := replay_cons.mp hrest
  exact passes_of_applyEvents hduring hkeep (groupAt_of_adds hadded hadds)

/-- The entries of a state that a run starts from or reaches are found by their identifier. -/
lemma groupAt_of_mem {m : DynamicGuildState} {certs : List QuorumGuildEvent}
    (h : applyEvents C m certs = .ok t) (hne : certs ≠ []) (hmem : entry ∈ m.codingGroups) :
    m.groupAt entry.group.id = some entry := by
  obtain ⟨c, rest, rfl⟩ := List.exists_cons_of_ne_nil hne
  obtain ⟨m', hm', -⟩ := replay_cons.mp h
  obtain ⟨hwf, -⟩ := applyEvent_eq_ok.mp hm'
  exact (mem_of_groupAt hwf.groups_ascending).mpr ⟨hmem, rfl⟩

/-- **Retention over every run.** -/
theorem coding_group_retention (C : Crypto) (s t : DynamicGuildState) (calls : List Call)
    (hrun : run C s calls = .ok t) : Retention C s (certificates calls) t where
  kept := by
    intro before added during group hsplit hadds hkeep
    have happ := applyEvents_of_run hrun
    rw [hsplit] at happ
    obtain ⟨entry, hentry, hpass⟩ := passes_of_added happ hadds hkeep
    refine ⟨entry, List.mem_of_find?_eq_some hentry, ?_⟩
    rcases hpass with ⟨hnone, rfl⟩ | ⟨b, r, a, retain, hevents, honly, hkind, hle, -, rfl⟩
    · exact ⟨rfl, rfl, .inl ⟨rfl, rfl, fun c hc => hnone c.event (List.mem_map_of_mem hc)⟩⟩
    · exact ⟨rfl, rfl, .inr ⟨r, retain, ⟨⟨b, a, hevents, honly⟩, hkind, hle⟩, rfl, rfl⟩⟩
  forgotten := by
    intro before added during forget group hsplit hadds hkeep hforgets
    have happ := applyEvents_of_run hrun
    rw [hsplit, ← List.cons_append, ← List.append_assoc] at happ
    obtain ⟨m, hm, hlast⟩ := replay_append.mp happ
    obtain ⟨m', hforget, -⟩ := replay_cons.mp hlast
    obtain ⟨entry, hentry, hpass⟩ := passes_of_added hm hadds hkeep
    obtain ⟨entry', retained, hentry', hretained, hpast⟩ := groupAt_of_forgets hforget hforgets
    rw [hentry, Option.some_inj] at hentry'
    subst hentry'
    rcases hpass with ⟨-, rfl⟩ | ⟨b, r, a, retain, hevents, honly, hkind, hle, -, rfl⟩
    · cases hretained
    · cases hretained
      exact ⟨r, retained, ⟨⟨b, a, hevents, honly⟩, hkind, hle⟩, hpast⟩
  window := by
    intro before during m entry hsplit hm hmem hset hkeep
    have happ := applyEvents_of_run hrun
    rw [hsplit] at happ
    obtain ⟨m', hm', hduring⟩ := replay_append.mp happ
    obtain rfl : m = m' := Except.ok.inj (hm.symm.trans hm')
    by_cases hne : during = []
    · subst hne
      rwa [← replay_nil.mp hduring]
    · obtain ⟨entry', hentry', hpass⟩ :=
        passes_of_applyEvents hduring hkeep (groupAt_of_mem hduring hne hmem)
      rcases hpass with ⟨-, rfl⟩ | ⟨b, r, a, retain, -, -, -, -, hopen, -⟩
      · exact List.mem_of_find?_eq_some hentry'
      · -- validation keeps the two halves of a window together
        obtain ⟨c, rest, rfl⟩ := List.exists_cons_of_ne_nil hne
        obtain ⟨_, hc, -⟩ := replay_cons.mp hduring
        have hwindow := ((applyEvent_eq_ok.mp hc).1.groups_sound entry hmem).window
        rw [hopen] at hwindow
        exact absurd (Option.isSome_eq_false_iff.mp hwindow.symm) (by simpa using hset)
  retiredFirst := by
    intro before forget id hsplit hforgets
    have happ := applyEvents_of_run hrun
    rw [hsplit] at happ
    obtain ⟨m, hm, hlast⟩ := replay_append.mp happ
    obtain ⟨m', hforget, -⟩ := replay_cons.mp hlast
    obtain ⟨entry, retained, hentry, hretained, hpast⟩ := groupAt_of_forgets hforget hforgets
    have hwf := (applyEvent_eq_ok.mp hforget).1
    obtain ⟨hmem, hid⟩ := (mem_of_groupAt hwf.groups_ascending).mp hentry
    have hsound := hwf.groups_sound entry hmem
    have hsome : entry.retiredAtEvent.isSome := by
      rw [hsound.window, hretained]
      rfl
    obtain ⟨retiredAt, hretired⟩ := Option.isSome_iff_exists.mp hsome
    have hle := hsound.retained retained hretained
    rw [hretired, Option.getD_some] at hle
    exact ⟨m, hm, entry, hmem, hid, retiredAt, retained, hretired, hretained, hle, hpast⟩

/-! ### A life cycle

A group is added, retired through the event that retires it, and forgotten by the next. -/

/-- A group of one data and one parity shard on the first two members. -/
def sampleGroup : CodingGroupV2 :=
  let commitment : MerkleCommitment :=
    { formatVersion := 1, leafSize := 16, byteLen := 16, root := 5 }
  let profile : CodingProfile :=
    { formatVersion := 1, construction := .galois8Vandermonde, dataShards := 1, parityShards := 1,
      shardSize := 16 }
  let roles : List ShardRoleV2 := [.information
      { owner := ⟨1⟩
        failureDomain := "home"
        sector := { id := 6, commitment := commitment, logicalLen := 16, virtualZero := false } },
     .parity { holder := ⟨2⟩, failureDomain := "office", row := 0, commitment := commitment }]
  { id := (codingGroupV2Id .transparent 2 7 profile roles).toOption.getD 0
    formatVersion := 2
    guildId := 7
    profile := profile
    roles := roles }

def lifeCycleCalls : List Call := (sampleState.transparentCertificates
    [(.addCodingGroup sampleGroup, [⟨1⟩, ⟨2⟩]), (.retireCodingGroup sampleGroup.id 2, [⟨1⟩, ⟨3⟩]),
     (.forgetCodingGroup sampleGroup.id, [⟨2⟩, ⟨3⟩])]).map .applyEvent

theorem coding_group_retention_lifeCycle :
    ∃ t, run .transparent sampleState lifeCycleCalls = .ok t ∧
      (certificates lifeCycleCalls).length = 3 ∧ t.codingGroups = [] ∧
      Retention .transparent sampleState (certificates lifeCycleCalls) t := by
  obtain ⟨t, ht⟩ : Succeeds (run .transparent sampleState lifeCycleCalls) := by
    decide +kernel
  have hempty : ((run .transparent sampleState lifeCycleCalls).toOption.map
      DynamicGuildState.codingGroups) = some [] := by
    decide +kernel
  rw [ht] at hempty
  exact ⟨t, ht, by decide +kernel, Option.some_inj.mp hempty, coding_group_retention _ _ _ _ ht⟩

end DynamicGuildState

end MutualBackup

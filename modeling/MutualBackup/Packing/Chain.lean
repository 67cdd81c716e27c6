import MutualBackup.Packing.Update

/-!
# Chains of catalogs

A chain starts without a catalog or with an empty one, and every step packs over the latest catalog
with either packer.  Along a chain chunks keep their slots, full sectors are mixed, and there are
never more sectors than some step needed (`packing_chain_keeps_slots_and_mixes`).
-/

namespace MutualBackup

open Framework

/-- A step of a chain, with the number of its chunks. -/
inductive PackingStep (C : Crypto) (profile : PackingProfile) :
    Option PackedCatalog → ℕ → PackedCatalog → Prop
  | full {previous : Option PackedCatalog} {inputs : List PackingInput} {result : PackingResult}
      (h : packIncremental C profile previous inputs = .ok result) :
      PackingStep C profile previous (chunkCount profile inputs) result.catalog
  | changed {previous : PackedCatalog} {sources : List AuthenticatedPackingSource}
      {inputs : List PackingInput}
      {load : List PackedSectorDescriptor → PackedSectorDescriptor →
        Outcome PackingError (List UInt8)}
      {update : PackingUpdate} {calls : List PackedSectorDescriptor}
      (h : packIncrementalAuthenticated C profile previous sources inputs load =
        .ok (update, calls)) :
      PackingStep C profile (some previous) (sources.length * profile.width) update.catalog

/-- The latest catalog, after some steps. -/
def latestCatalog (start : Option PackedCatalog) (steps : List (ℕ × PackedCatalog)) :
    Option PackedCatalog :=
  (steps.getLast?.map Prod.snd).or start

/-- Every step packs over the latest catalog before it. -/
def PackingChain (C : Crypto) (profile : PackingProfile) (start : Option PackedCatalog)
    (steps : List (ℕ × PackedCatalog)) : Prop :=
  ∀ before count catalog after, steps = before ++ (count, catalog) :: after →
    PackingStep C profile (latestCatalog start before) count catalog

variable {C : Crypto} {profile : PackingProfile} {start previous : Option PackedCatalog}
  {steps : List (ℕ × PackedCatalog)} {count : ℕ} {catalog : PackedCatalog}

/-! ## A step -/

/-- What both packers do to the layout. -/
structure Lays (C : Crypto) (profile : PackingProfile) (previous : Option PackedCatalog)
    (desired : Table SourceChunkId InputChunk) (catalog : PackedCatalog) : Prop where
  profile_ok : profile.validate = .ok ()
  previous_ok : checkPrevious C profile previous = .ok ()
  valid : checkPrevious C profile (some catalog) = .ok ()
  layout : catalog.layout = stepLayout profile previous desired

lemma checkPrevious_some (hvalid : catalog.validate C = .ok ())
    (hprofile : catalog.profile = profile) : checkPrevious C profile (some catalog) = .ok () :=
  checkPrevious_eq_ok.mpr fun _ hp => Option.some.inj hp ▸ ⟨hvalid, hprofile⟩

lemma PackingStep.lays (h : PackingStep C profile previous count catalog) :
    ∃ desired, desired.rows.length = count ∧ Lays C profile previous desired catalog := by
  cases h with
  | @full previous inputs result h =>
    have hpacked := packIncremental_eq_ok.mp h
    obtain ⟨revision, -, hcatalog⟩ := hpacked.catalog
    have hvalid : result.catalog.validate C = .ok () := by
      have hresult := hpacked.valid
      simp only [PackingResult.validate, bind_eq_ok, exists_unit] at hresult
      exact hresult.1
    refine ⟨_, hpacked.count, hpacked.profile_ok, hpacked.previous_ok,
      checkPrevious_some hvalid ?_, hpacked.layout⟩
    rw [(sealCatalog_eq_ok.mp hcatalog).1]
  | @changed previous sources inputs load update calls h =>
    obtain ⟨desired, scan, hupdated, -⟩ := packIncrementalAuthenticated_eq_ok.mp h
    obtain ⟨evidence, revision, -, -, hcatalog⟩ := hupdated.catalog
    refine ⟨desired, hupdated.count, hupdated.profile_ok, hupdated.checked,
      checkPrevious_some hupdated.valid ?_, hupdated.layout⟩
    rw [(sealCatalog_eq_ok.mp hcatalog).1]

variable {desired : Table SourceChunkId InputChunk}

/-- A chunk of both catalogs keeps its slot. -/
lemma Lays.stable (h : Lays C profile previous desired catalog) {i j : ℕ} {id : SourceChunkId}
    (hbefore : slotItem (priorLayout previous) i j = some id)
    (hafter : id ∈ allItems catalog.layout) : slotItem catalog.layout i j = some id := by
  rw [h.layout] at hafter ⊢
  exact slotItem_nextLayout hbefore (wanted_of_mem_stepLayout h.profile_ok h.previous_ok id hafter)

/-! ## Whole chains -/

lemma latestCatalog_append (before : List (ℕ × PackedCatalog)) (step : ℕ × PackedCatalog) :
    latestCatalog start (before ++ [step]) = some step.2 := by
  rw [latestCatalog, List.getLast?_concat]
  rfl

lemma PackingChain.init {before after : List (ℕ × PackedCatalog)}
    (h : PackingChain C profile start (before ++ after)) : PackingChain C profile start before := by
  rintro first count catalog rest rfl
  refine h first count catalog (rest ++ after) ?_
  rw [List.append_assoc, List.cons_append]

/-- The invariant of a chain: full sectors are mixed, and some step needed the sectors. -/
structure WellSpread (profile : PackingProfile) (steps : List (ℕ × PackedCatalog))
    (layout : List (List (Option SourceChunkId))) : Prop where
  mixing : Mixing SourceChunkId.owner layout
  dense : layout = [] ∨ ∃ step ∈ steps, layout.length ≤ step.1 ⌈/⌉ (profile.width - 1)

lemma WellSpread.step {before : List (ℕ × PackedCatalog)} (hwidth : 2 ≤ profile.width)
    (h : WellSpread profile before (priorLayout previous))
    (hlays : Lays C profile previous desired catalog) (hcount : desired.rows.length = count) :
    WellSpread profile (before ++ [(count, catalog)]) catalog.layout := by
  have hsized : OfWidth profile.width (priorLayout previous) := sized_priorLayout hlays.previous_ok
  have hle : catalog.layout.length ≤
      max (priorLayout previous).length (count ⌈/⌉ (profile.width - 1)) := by
    rw [hlays.layout, ← hcount]
    exact length_nextLayout_le hsized hwidth (nodup_priorLayout hlays.previous_ok)
  refine ⟨hlays.layout ▸ mixing_nextLayout h.mixing hsized hwidth, .inr ?_⟩
  rcases le_max_iff.mp hle with hprior | hneeded
  · rcases h.dense with hempty | ⟨step, hstep, hdense⟩
    · rw [hempty, List.length_nil] at hprior
      exact ⟨(count, catalog), by simp, hprior.trans (Nat.zero_le _)⟩
    · exact ⟨step, List.mem_append_left _ hstep, hprior.trans hdense⟩
  · exact ⟨(count, catalog), by simp, hneeded⟩

lemma PackingChain.spread (h : PackingChain C profile start steps) (hwidth : 2 ≤ profile.width)
    (hstart : ∀ c ∈ start, c.sectors = []) :
    WellSpread profile steps (priorLayout (latestCatalog start steps)) := by
  induction steps using List.reverseRecOn with
  | nil =>
    have hempty : priorLayout (latestCatalog start []) = [] := by
      cases start with
      | none => rfl
      | some c => simp [latestCatalog, priorLayout, PackedCatalog.layout, hstart c rfl]
    rw [hempty]
    exact ⟨by simp [Mixing], .inl rfl⟩
  | append_singleton before step ih =>
    obtain ⟨desired, hcount, hlays⟩ := (h before step.1 step.2 [] rfl).lays
    rw [latestCatalog_append]
    exact (ih h.init).step hwidth hlays hcount

/-- The latest catalog of a chain can be packed over. -/
lemma PackingChain.sized (h : PackingChain C profile start steps)
    (hstart : ∀ c ∈ start, c.sectors = []) :
    OfWidth profile.width (priorLayout (latestCatalog start steps)) := by
  cases steps using List.reverseRecOn with
  | nil =>
    cases start with
    | none => simp [latestCatalog, priorLayout, OfWidth]
    | some c => simp [latestCatalog, priorLayout, PackedCatalog.layout, hstart c rfl, OfWidth]
  | append_singleton before step =>
    obtain ⟨desired, -, hlays⟩ := (h before step.1 step.2 [] rfl).lays
    rw [latestCatalog_append]
    exact sized_priorLayout hlays.valid

/-- **Along a chain, chunks keep their slots, full sectors have chunks of two owners, and the number
of sectors is bounded by what some step so far needed.**  The expectations of the allocator hold,
whatever is packed over a catalog of the chain. -/
theorem packing_chain_keeps_slots_and_mixes (C : Crypto) (profile : PackingProfile)
    (start : Option PackedCatalog) (steps : List (ℕ × PackedCatalog))
    (hwidth : 2 ≤ profile.width) (hstart : ∀ c ∈ start, c.sectors = [])
    (hchain : PackingChain C profile start steps) :
    (∀ before count catalog after, steps = before ++ (count, catalog) :: after →
      (∀ i j id, slotItem (priorLayout (latestCatalog start before)) i j = some id →
        id ∈ allItems catalog.layout → slotItem catalog.layout i j = some id) ∧
      (∀ s ∈ catalog.layout, freeSlots s = 0 → 1 < (sectorOwners SourceChunkId.owner s).card) ∧
      ∃ step ∈ before ++ [(count, catalog)],
        catalog.sectors.length ≤ step.1 ⌈/⌉ (profile.width - 1)) ∧
    ∀ before after, steps = before ++ after → ∀ desired : Table SourceChunkId InputChunk,
      Succeeds (allocate profile.width
        (retainedSlots desired (((latestCatalog start before).map PackedCatalog.sectors).getD []))
        (pendingChunks desired (retainedSlots desired
          (((latestCatalog start before).map PackedCatalog.sectors).getD [])))) := by
  constructor
  · rintro before count catalog after rfl
    obtain ⟨desired, hcount, hlays⟩ := (hchain before count catalog after rfl).lays
    have hspread := (hchain.init.spread hwidth hstart).step hwidth hlays hcount
    refine ⟨fun i j id hbefore hafter => hlays.stable hbefore hafter, hspread.mixing, ?_⟩
    rcases hspread.dense with hempty | ⟨step, hstep, hdense⟩
    · have hnone : catalog.sectors = [] := List.map_eq_nil_iff.mp hempty
      exact ⟨(count, catalog), by simp, by simp [hnone]⟩
    · refine ⟨step, hstep, ?_⟩
      rwa [PackedCatalog.layout, List.length_map] at hdense
  · rintro before after rfl desired
    rw [retainedSlots_previous]
    exact ⟨_, allocate_kept (hchain.init.sized hstart) (by omega)⟩

/-- Two owners with a chunk each, and then a second object of the first. -/
theorem packing_chain_keeps_slots_and_mixes_two_owners :
    ∃ first second : PackingResult, packIncremental .transparent ⟨1, 32, 16⟩ none
        [⟨⟨1⟩, 1, 1, [1], none⟩, ⟨⟨2⟩, 1, 1, [2], none⟩] = .ok first ∧
      packIncremental .transparent ⟨1, 32, 16⟩ (some first.catalog)
        [⟨⟨1⟩, 1, 1, [1], none⟩, ⟨⟨1⟩, 1, 2, [3], none⟩] = .ok second ∧
      (∀ i j id, slotItem first.catalog.layout i j = some id →
        id ∈ allItems second.catalog.layout → slotItem second.catalog.layout i j = some id) := by
  have hruns : Succeeds (do
      let first ← packIncremental .transparent ⟨1, 32, 16⟩ none
        [⟨⟨1⟩, 1, 1, [1], none⟩, ⟨⟨2⟩, 1, 1, [2], none⟩]
      packIncremental .transparent ⟨1, 32, 16⟩ (some first.catalog)
        [⟨⟨1⟩, 1, 1, [1], none⟩, ⟨⟨1⟩, 1, 2, [3], none⟩]) := by
    decide +kernel
  obtain ⟨second, hruns⟩ := hruns
  obtain ⟨first, hfirst, hsecond⟩ := bind_eq_ok.mp hruns
  refine ⟨first, second, hfirst, hsecond, ?_⟩
  have hchain : PackingChain .transparent ⟨1, 32, 16⟩ none
      [(chunkCount ⟨1, 32, 16⟩ [⟨⟨1⟩, 1, 1, [1], none⟩, ⟨⟨2⟩, 1, 1, [2], none⟩], first.catalog),
        (chunkCount ⟨1, 32, 16⟩ [⟨⟨1⟩, 1, 1, [1], none⟩, ⟨⟨1⟩, 1, 2, [3], none⟩],
          second.catalog)] := by
    intro before count catalog after hsteps
    rcases before with _ | ⟨step, _ | ⟨step', rest⟩⟩
    · cases hsteps
      exact .full hfirst
    · cases hsteps
      exact .full hsecond
    · simp at hsteps
  exact ((packing_chain_keeps_slots_and_mixes .transparent ⟨1, 32, 16⟩ none _ (by decide)
    (by simp) hchain).1 [_] _ _ [] rfl).1

end MutualBackup

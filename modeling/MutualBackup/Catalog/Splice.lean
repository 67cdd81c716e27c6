import MutualBackup.Catalog.Tree
import MutualBackup.Framework.RopeEdit

/-!
# Splicing a catalog stream

`CatalogPageRef::splice` of `catalog/splice.rs` replaces a byte range of a stream by at most a leaf
of bytes.  It copies the pages on the paths to the two ends of the range, skips what lies inside or
outside, and hands the new pages to a sink, children first; a page that comes out as it was is not
handed over.

The edit on the tree is `RopeEdit` at the limits of the format, and the code refines it: a run that
succeeds returns the root of the edited tree, over pages that were there or were handed over.
-/

namespace MutualBackup

open Framework List Traced Rope RopeEdit

/-! ## The code -/

/-- The pages a splice gets from the storage, those it hands over, and those that come out as they
were: they are encoded, but not handed over. -/
inductive Access where
  | fetched (page : Emitted)
  | stored (page : Emitted)
  | kept (page : Emitted)
  deriving DecidableEq

/-- A part of a splice. -/
abbrev Splicing (ε α : Type) := Traced Access (CatalogStreamError ε) α

/-- The two callbacks of a splice.  Their answers may depend on everything before. -/
structure PageStorage (ε : Type) where
  fetch : List Access → CatalogPageRef → Except ε (List UInt8)
  sink : List Access → Emitted → Except ε Unit

/-- `Edit`. -/
structure Edit where
  scope : CatalogScope
  sec : CatalogSection
  start : U64
  stop : U64
  replacement : List UInt8
  deriving DecidableEq

namespace Edit

variable {ε : Type} (C : Crypto) (S : PageStorage ε) (e : Edit)

/-- `Edit::emit`. -/
def emit (height : U8) (body : PageBody) (original : Option CatalogPageRef) :
    Splicing ε CatalogPageRef := do
  Traced.lift (reject (catalogMaxHeight < height.val) (.catalog .bounds))
  let page ← Traced.lift (mapErr .catalog
    (Page.encode C ⟨1, e.scope, e.sec, height, body⟩))
  let _ ← (if some page.1 ≠ original then
      Traced.call (fun log => S.sink log page) CatalogStreamError.storage fun _ => .stored page
    -- the source does nothing here; only the log of the model notes the page
    else Traced.record (.kept page))
  pure page.1

/-- The loops of `visit` over the chunks of what a page has become. -/
def emitAll (height : U8) (original : CatalogPageRef) :
    List PageBody → Splicing ε (List CatalogPageRef)
  | [] => pure []
  | body :: bodies => do
    let reference ← e.emit C S height body (some original)
    let references ← emitAll height original bodies
    pure (reference :: references)

section

variable (visit : CatalogPageRef → U64 → Bool → Splicing ε (List CatalogPageRef))

/-- The loop of `visit` over the children of an index page: what they have become, where the last
one ends, and whether one of them took the replacement. -/
def visitChildren (inserts : Bool) :
    List CatalogPageRef → U64 → Bool → Splicing ε (List CatalogPageRef × U64 × Bool)
  | [], position, inserted => pure ([], position, inserted)
  | child :: children, position, inserted => do
    let childEnd ← Traced.lift (okOr (checkedAdd position child.byteLen) (.catalog .bounds))
    let childInserts := inserts && !inserted && (e.start < childEnd || children.isEmpty)
    let changed ← visit child position childInserts
    let (rest, position, inserted) ←
      visitChildren inserts children childEnd (inserted || childInserts)
    pure (changed ++ rest, position, inserted)

/-- What `visit` does with a page it has fetched, over the visit of the children. -/
def visitBody (reference : CatalogPageRef) (offset stop : U64) (inserts : Bool) :
    PageBody → Splicing ε (List CatalogPageRef)
  | .leaf bytes =>
    let start := min (e.start.val - offset.val) reference.byteLen.val
    let stop := min (e.stop.val - offset.val) reference.byteLen.val
    let inserted := if inserts then e.replacement else []
    let changed := bytes.take start ++ inserted ++ bytes.drop stop
    e.emitAll C S 0 reference ((chunks catalogLeafBytes changed).map .leaf)
  | .index children => do
    let (changed, position, inserted) ← e.visitChildren visit inserts children offset false
    Traced.lift (reject (position ≠ stop ∨ (inserts = true ∧ inserted = false))
      (.catalog .invalidPage))
    e.emitAll C S reference.height reference ((chunks catalogFanout changed).map .index)

/-- `visit`, over the visit of the children. -/
def visitPage (reference : CatalogPageRef) (offset : U64) (inserts : Bool) :
    Splicing ε (List CatalogPageRef) := do
  let stop ← Traced.lift (okOr (checkedAdd offset reference.byteLen) (.catalog .bounds))
  if inserts = false ∧ e.start ≤ offset ∧ stop ≤ e.stop then pure []
  else if inserts = false ∧ (stop ≤ e.start ∨ e.stop ≤ offset) then pure [reference]
  else do
    let page ← fetchPage C e.scope e.sec S.fetch Access.fetched reference
    e.visitBody C S visit reference offset stop inserts page.body

end

/-- `Edit::visit`, for a reference of a height.  A page of height zero that verifies has no
children. -/
def visit :
    ℕ → CatalogPageRef → U64 → Bool → Splicing ε (List CatalogPageRef)
  | 0 => e.visitPage C S fun _ _ _ => Traced.lift (fail (.catalog .invalidPage))
  | height + 1 => e.visitPage C S (visit height)

/-- The root over what the old root has become. -/
def join (height : U8) :
    List CatalogPageRef → Splicing ε CatalogPageRef
  | [] => e.emit C S 0 (.leaf []) none
  | [root] => pure root
  | roots => e.emit C S (Fin.ofNat _ (height.val + 1)) (.index roots) none

/-! ### What is recorded stays -/

lemma grows_emit (height : U8) (body : PageBody) (original : Option CatalogPageRef) :
    (e.emit C S height body original).Grows := by
  refine (grows_lift _).bind fun _ => (grows_lift _).bind fun page =>
    Grows.bind ?_ fun _ => grows_pure _
  split
  · exact grows_call _ _ _
  · exact grows_record _

lemma grows_emitAll (height : U8) (original : CatalogPageRef) (bodies : List PageBody) :
    (e.emitAll C S height original bodies).Grows := by
  induction bodies with
  | nil => exact grows_pure _
  | cons body bodies ih =>
    exact (e.grows_emit C S _ _ _).bind fun _ => ih.bind fun _ => grows_pure _

section

variable {visit : CatalogPageRef → U64 → Bool → Splicing ε (List CatalogPageRef)}
  (hvisit : ∀ r offset inserts, (visit r offset inserts).Grows)

include hvisit

lemma grows_visitChildren (inserts : Bool) (children : List CatalogPageRef) (position : U64)
    (inserted : Bool) : (e.visitChildren visit inserts children position inserted).Grows := by
  induction children generalizing position inserted with
  | nil => exact grows_pure _
  | cons child children ih =>
    exact (grows_lift _).bind fun _ => (hvisit _ _ _).bind fun _ =>
      (ih _ _).bind fun _ => grows_pure _

lemma grows_visitBody (r : CatalogPageRef) (offset stop : U64) (inserts : Bool) (body : PageBody) :
    (e.visitBody C S visit r offset stop inserts body).Grows := by
  cases body with
  | leaf bytes => exact e.grows_emitAll C S _ _ _
  | index children =>
    exact (e.grows_visitChildren hvisit _ _ _ _).bind fun _ => (grows_lift _).bind fun _ =>
      e.grows_emitAll C S _ _ _

lemma grows_visitPage (r : CatalogPageRef) (offset : U64) (inserts : Bool) :
    (e.visitPage C S visit r offset inserts).Grows := by
  refine (grows_lift _).bind fun stop => ?_
  split_ifs
  · exact grows_pure _
  · exact grows_pure _
  · exact grows_fetchPage.bind fun page => e.grows_visitBody C S hvisit _ _ _ _ _

end

lemma grows_visit (height : ℕ) (r : CatalogPageRef) (offset : U64) (inserts : Bool) :
    (e.visit C S height r offset inserts).Grows := by
  induction height generalizing r offset inserts with
  | zero => exact e.grows_visitPage C S (fun _ _ _ => grows_lift _) _ _ _
  | succ height ih => exact e.grows_visitPage C S ih _ _ _

lemma grows_join (height : U8) : ∀ roots, (e.join C S height roots).Grows
  | [] => e.grows_emit C S _ _ _
  | [_] => grows_pure _
  | _ :: _ :: _ => e.grows_emit C S _ _ _

end Edit

/-- `CatalogPageRef::splice`.  The lengths are in range, since that of the root is. -/
def CatalogPageRef.splice {ε : Type} (C : Crypto) (S : PageStorage ε) (r : CatalogPageRef)
    (scope : CatalogScope) (sec : CatalogSection) (start stop : U64)
    (replacement : List UInt8) : Splicing ε CatalogPageRef := do
  Traced.lift (mapErr .catalog r.validate)
  Traced.lift (mapErr .catalog (scope.validate sec))
  Traced.lift (reject (stop < start ∨ r.byteLen < stop ∨ catalogLeafBytes < replacement.length)
    (.catalog .bounds))
  let length := r.byteLen.val - (stop.val - start.val) + replacement.length
  Traced.lift (reject (catalogMaxStreamBytes < length) (.catalog .bounds))
  if start = stop ∧ replacement = [] then pure r
  else do
    let edit : Edit := ⟨scope, sec, start, stop, replacement⟩
    let roots ← edit.visit C S r.height.val r 0 true
    let root ← edit.join C S r.height roots
    Traced.lift (reject (root.byteLen.val ≠ length) (.catalog .invalidPage))
    pure root

/-! ## Pages of edited trees -/

/-- What a reference counts is what a tree without labels has. -/
structure Counts {h : ℕ} (r : CatalogPageRef) (u : Rope Unit UInt8 h) : Prop where
  valid : r.Valid
  height : r.height.val = h
  byteLen : r.byteLen.val = u.size
  occurrences : r.pageOccurrences.val = u.occurrences

variable {bytes : List UInt8}

section Pages

variable {C : Crypto} {scope : CatalogScope} {sec : CatalogSection}

lemma Counts.of_encode {h : ℕ} {u : Rope Unit UInt8 h} {p : Page} {r : CatalogPageRef}
    (hencode : p.encode C = .ok (r, bytes)) (hheight : p.height.val = h)
    (hbytes : r.byteLen.val = u.size) (hpages : r.pageOccurrences.val = u.occurrences) :
    Counts r u := by
  refine ⟨Page.valid_of_encode hencode, ?_, hbytes, hpages⟩
  rw [(Page.encode_eq_ok.mp hencode).2.2.2.2.2, hheight]

lemma exists_encode_leaf (hcovers : scope.validate sec = .ok ()) {piece : List UInt8}
    (hlen : piece.length ≤ catalogLeafBytes) :
    ∃ page, Page.encode C ⟨1, scope, sec, 0, .leaf piece⟩ = .ok page ∧
      Counts page.1 (leaf () piece) := by
  obtain ⟨r, bytes, hencode, hbytes, hpages⟩ := Page.exists_encode_leaf (C := C) hcovers hlen
  exact ⟨(r, bytes), hencode, Counts.of_encode hencode rfl hbytes hpages⟩

variable {h : ℕ} {refs : List CatalogPageRef} {us : List (Rope Unit UInt8 h)}

section

variable (hall : Forall₂ Counts refs us)

include hall

lemma Counts.sum_byteLen : (refs.map fun r => r.byteLen.val).sum = (us.map size).sum :=
  congrArg List.sum (map_eq_map_of_forall₂ (hall.imp fun _ _ => Counts.byteLen))

lemma Counts.sum_occurrences :
    (refs.map fun r => r.pageOccurrences.val).sum = (us.map Rope.occurrences).sum :=
  congrArg List.sum (map_eq_map_of_forall₂ (hall.imp fun _ _ => Counts.occurrences))

lemma Counts.isChild (hpos : ∀ u ∈ us, 0 < u.size) : ∀ r ∈ refs, Page.IsChild (h + 1) r := by
  induction hall with
  | nil => exact forall_mem_nil _
  | cons hfirst _ ih =>
    rw [forall_mem_cons] at hpos ⊢
    refine ⟨⟨hfirst.valid, by rw [hfirst.height], ?_⟩, ih hpos.2⟩
    rw [hfirst.byteLen]
    exact hpos.1

end

/-- An index page over references to what is there encodes, unless it stands for too many pages. -/
lemma encode_index (hcovers : scope.validate sec = .ok ())
    (hheight : h + 1 ≤ catalogMaxHeight) (hall : Forall₂ Counts refs us) (hne : us ≠ [])
    (hlen : us.length ≤ catalogFanout) (hpos : ∀ u ∈ us, 0 < u.size)
    (hbytes : (node () us).size ≤ catalogMaxStreamBytes) :
    (∃ page, Page.encode C ⟨1, scope, sec, Fin.ofNat _ (h + 1), .index refs⟩ = .ok page ∧
        Counts page.1 (node () us)) ∨
      catalogMaxPageOccurrences < (node () us).occurrences ∧
        Page.encode C ⟨1, scope, sec, Fin.ofNat _ (h + 1), .index refs⟩ = fail .bounds := by
  have hmax : catalogMaxHeight = 3 := rfl
  have hstream : catalogMaxStreamBytes = 17179869184 := rfl
  have hocc : catalogMaxPageOccurrences = 1000000 := rfl
  have hfan : catalogFanout = 128 := rfl
  have hsucc := Page.val_height hheight
  have hchildren := Counts.isChild hall hpos
  have hbyteSum := Counts.sum_byteLen hall
  have hpageSum := Counts.sum_occurrences hall
  have hlength := hall.length_eq
  have hrefs : refs ≠ [] := by
    rintro rfl
    exact hne (eq_nil_of_length_eq_zero hlength.symm)
  rw [size_node] at hbytes
  rw [occurrences_node, ← hpageSum]
  -- Each child stands for at most a million pages, so the sums do not overflow.
  have hpages : (refs.map fun r => r.pageOccurrences.val).sum ≤ refs.length * 1000000 := by
    have hle : ∀ n ∈ refs.map fun r => r.pageOccurrences.val, n ≤ 1000000 := by
      rw [forall_mem_map]
      exact fun r hr => (hchildren r hr).valid.occurrences_le
    simpa using sum_le_card_nsmul _ _ hle
  have hsums : refs.foldlM (Page.addChild (Fin.ofNat _ (h + 1))) (0, 1) =
      .ok (⟨(us.map size).sum, by omega⟩,
        ⟨1 + (refs.map fun r => r.pageOccurrences.val).sum, by omega⟩) := by
    rw [Page.foldlM_addChild_eq_ok, hsucc]
    refine ⟨hchildren, ?_, rfl⟩
    simp only
    rw [hbyteSum]
    exact (Nat.zero_add _).symm
  rcases Nat.lt_or_ge catalogMaxPageOccurrences (1 + (refs.map fun r => r.pageOccurrences.val).sum)
    with hmany | hfew
  · refine .inr ⟨hmany, ?_⟩
    have hcounts : Page.counts ⟨1, scope, sec, Fin.ofNat _ (h + 1), .index refs⟩ =
        fail .bounds := by
      have hframe : ¬ ((1 : U16) ≠ 1 ∨ catalogMaxHeight < (Fin.ofNat (2 ^ 8) (h + 1)).val) := by
        rw [hsucc]
        simp only [ne_eq, not_true_eq_false, false_or]
        omega
      have hguard : ¬ ((Fin.ofNat (2 ^ 8) (h + 1)).val = 0 ∨ refs = [] ∨
          catalogFanout < refs.length) := by
        rw [hsucc, hlength]
        simp only [hrefs, false_or]
        omega
      rw [Page.counts]
      simp only [hcovers, ok_bind, reject, if_neg hframe, if_neg hguard, hsums]
      rw [if_pos (.inr hmany)]
      rfl
    rw [Page.encode, hcounts]
    rfl
  · obtain ⟨r, bytes, hencode, hb, hp⟩ := Page.exists_encode_index (C := C) hcovers hheight hrefs
      (hlength.trans_le hlen) hchildren (hbyteSum.trans_le hbytes) hfew
    refine .inl ⟨(r, bytes), hencode, Counts.of_encode hencode hsucc ?_ ?_⟩
    · rw [hb, hbyteSum, size_node]
    · rw [hp, occurrences_node, ← hpageSum]

end Pages

/-! ## What a run leaves behind -/

def fetchedPages (log : List Access) : List Emitted := log.filterMap fun
    | .fetched page => some page
    | _ => none

def storedPages (log : List Access) : List Emitted := log.filterMap fun
    | .stored page => some page
    | _ => none

def keptPages (log : List Access) : List Emitted := log.filterMap fun
    | .kept page => some page
    | _ => none

section Lists

variable (log : List Access) (page : Emitted)

@[simp] lemma fetchedPages_fetched :
    fetchedPages (log ++ [.fetched page]) = fetchedPages log ++ [page] := by
  simp [fetchedPages]

@[simp] lemma fetchedPages_stored : fetchedPages (log ++ [.stored page]) = fetchedPages log := by
  simp [fetchedPages]

@[simp] lemma fetchedPages_kept : fetchedPages (log ++ [.kept page]) = fetchedPages log := by
  simp [fetchedPages]

@[simp] lemma storedPages_kept : storedPages (log ++ [.kept page]) = storedPages log := by
  simp [storedPages]

lemma mem_keptPages : page ∈ keptPages (log ++ [.kept page]) := by
  simp [keptPages]

@[simp] lemma storedPages_fetched : storedPages (log ++ [.fetched page]) = storedPages log := by
  simp [storedPages]

@[simp] lemma storedPages_stored :
    storedPages (log ++ [.stored page]) = storedPages log ++ [page] := by
  simp [storedPages]

end Lists

/-- The callbacks are those of a storage that has the pages and takes new ones. -/
structure PageStorage.Honest {ε : Type} (S : PageStorage ε) (pages : List Emitted) : Prop where
  fetch : ∀ log, ∀ page ∈ pages, S.fetch log page.1 = .ok page.2
  sink : ∀ log page, S.sink log page = .ok ()

/-- Up to the end of a run the storage has returned no other page with the reference and the hash of
one of the pages. -/
def PageStorage.Faithful {ε : Type} (C : Crypto) (S : PageStorage ε) (pages : List Emitted)
    (final : List Access) : Prop :=
  ∀ log r bytes, S.fetch log r = .ok bytes → log ++ [.fetched (r, bytes)] <+: final →
    ∀ page ∈ pages, page.1 = r → pageHash C page.2 = pageHash C bytes → page.2 = bytes

section

variable {ε : Type} {C : Crypto} {S : PageStorage ε} {pages seen more : List Emitted}
  {final : List Access}

lemma CollisionFree.mono (hfree : CollisionFree C pages more) (hsub : seen ⊆ more) :
    CollisionFree C pages seen :=
  fun page hpage entry hentry => hfree page hpage entry (hsub hentry)

lemma PageStorage.Honest.faithful (hhonest : S.Honest pages) : S.Faithful C pages final := by
  intro log r bytes hfetch _ page hmem hr _
  have hpage := hhonest.fetch log page hmem
  rw [hr, hfetch] at hpage
  exact (Except.ok.inj hpage).symm

lemma CollisionFree.faithful (hfree : CollisionFree C pages (fetchedPages final)) :
    S.Faithful C pages final := by
  rintro log r bytes - ⟨rest, rfl⟩ page hmem -
  refine hfree page hmem (r, bytes) ?_
  rw [fetchedPages, filterMap_append, ← fetchedPages, fetchedPages_fetched]
  exact mem_append_left _ (mem_append_right _ (mem_singleton_self _))

end

section Runs

variable (C : Crypto) (e : Edit) (scope : CatalogScope) (sec : CatalogSection)
  (pages : List Emitted)

/-- Pages that came one after another, each after the new pages it refers to. -/
inductive ChildrenEarlier : List Emitted → Prop
  | nil : ChildrenEarlier []
  | append {before : List Emitted} {page : Emitted} (p : Page) : ChildrenEarlier before →
      p.encode C = .ok page → p.scope = scope → p.sec = sec →
      (∀ children, p.body = .index children → ∀ c ∈ children, c ∈ (pages ++ before).map Prod.fst) →
      ChildrenEarlier (before ++ [page])

/-- What a stretch of a run does: it asks for these pages and hands pages over in order. -/
structure Ran (log log' : List Access) (asked : List CatalogPageRef) : Prop where
  grows : log <+: log'
  asks : (fetchedPages log').map Prod.fst = (fetchedPages log).map Prod.fst ++ asked
  ordered : ChildrenEarlier C e.scope e.sec pages (storedPages log) →
    ChildrenEarlier C e.scope e.sec pages (storedPages log')

/-- The pages there are at a point of a run. -/
def known (log : List Access) : List Emitted := pages ++ storedPages log

/-- A reference stands for an edited tree. -/
structure Made (log : List Access) {h : ℕ} (r : CatalogPageRef) (u : Rope Unit UInt8 h) : Prop where
  counts : Counts r u
  mem : r ∈ (known pages log).map Prod.fst
  tree : CollisionFree C pages (keptPages log) → ∃ t : PageTree h,
    t.label = r ∧ Stored C e.scope e.sec (known pages log) t ∧ t.erase = u

/-- A page body over references that stand for edited trees. -/
def BodyFor (log : List Access) : {h : ℕ} → PageBody → Rope Unit UInt8 h → Prop
  | 0, body, ⟨_, piece⟩ => body = .leaf piece
  | _ + 1, body, ⟨_, us⟩ =>
    ∃ refs, body = .index refs ∧ List.Forall₂ (Made C e pages log) refs us

end Runs

section RunLemmas

variable {C : Crypto} {e : Edit} {pages : List Emitted}
  {log mid log' : List Access} {h : ℕ} {r : CatalogPageRef} {u : Rope Unit UInt8 h}
  {body : PageBody}

lemma Ran.refl : Ran C e pages log log [] := ⟨prefix_rfl, (append_nil _).symm, id⟩

lemma Ran.trans {asked asked' : List CatalogPageRef} (hfirst : Ran C e pages log mid asked)
    (hrest : Ran C e pages mid log' asked') :
    Ran C e pages log log' (asked ++ asked') := by
  refine ⟨hfirst.grows.trans hrest.grows, ?_, fun h => hrest.ordered (hfirst.ordered h)⟩
  rw [hrest.asks, hfirst.asks, append_assoc]

lemma ran_fetched (page : Emitted) :
    Ran C e pages log (log ++ [.fetched page]) [page.1] := by
  refine ⟨prefix_append _ _, ?_, fun h => ?_⟩
  · rw [fetchedPages_fetched, map_append]
    rfl
  · rw [storedPages_fetched]
    exact h

lemma ran_kept (page : Emitted) : Ran C e pages log (log ++ [.kept page]) [] := by
  refine ⟨prefix_append _ _, ?_, fun h => ?_⟩
  · rw [fetchedPages_kept, append_nil]
  · rw [storedPages_kept]
    exact h

lemma keptPages_mono (hgrows : log <+: log') : keptPages log ⊆ keptPages log' := by
  obtain ⟨more, rfl⟩ := hgrows
  rw [keptPages, keptPages, filterMap_append]
  exact subset_append_left _ _

lemma known_mono (hgrows : log <+: log') : known pages log ⊆ known pages log' := by
  obtain ⟨more, rfl⟩ := hgrows
  unfold known storedPages
  rw [filterMap_append, ← append_assoc]
  exact subset_append_left _ _

lemma Made.mono (hgrows : log <+: log') (hmade : Made C e pages log r u) :
    Made C e pages log' r u := by
  refine ⟨hmade.counts, map_subset _ (known_mono hgrows) hmade.mem, fun hfree => ?_⟩
  obtain ⟨t, hlabel, hstored, herase⟩ := hmade.tree (hfree.mono (keptPages_mono hgrows))
  exact ⟨t, hlabel, hstored.mono (known_mono hgrows), herase⟩

lemma Made.mem_of_forall₂ {refs : List CatalogPageRef} {us : List (Rope Unit UInt8 h)}
    (hall : Forall₂ (Made C e pages log) refs us) :
    ∀ c ∈ refs, c ∈ (known pages log).map Prod.fst := by
  induction hall with
  | nil => exact forall_mem_nil _
  | cons hfirst _ ih => exact forall_mem_cons.mpr ⟨hfirst.mem, ih⟩

lemma Stored.made {t : PageTree h} (hs : Stored C e.scope e.sec pages t) :
    Made C e pages log t.label t.erase := by
  have hsub : pages ⊆ known pages log := subset_append_left _ _
  obtain ⟨bytes, -, hmem⟩ := hs.page
  refine ⟨⟨hs.valid, hs.height.2, ?_, ?_⟩, mem_map_of_mem (hsub hmem), fun _ => ?_⟩
  · rw [hs.byteLen, size_erase]
  · rw [hs.pageOccurrences, occurrences_erase]
  · exact ⟨t, rfl, hs.mono hsub, rfl⟩

/-- What a body refers to is known. -/
lemma BodyFor.mem_of_index (hbody : BodyFor C e pages log body u) {children : List CatalogPageRef}
    (hindex : body = .index children) : ∀ c ∈ children, c ∈ (known pages log).map Prod.fst := by
  cases h with
  | zero =>
    obtain ⟨_, piece⟩ := u
    cases hbody.symm.trans hindex
  | succ h =>
    obtain ⟨_, us⟩ := u
    obtain ⟨refs, hrefs, hall⟩ := hbody
    cases hrefs.symm.trans hindex
    exact Made.mem_of_forall₂ hall

lemma BodyFor.mono (hgrows : log <+: log') (hbody : BodyFor C e pages log body u) :
    BodyFor C e pages log' body u := by
  cases h with
  | zero => exact hbody
  | succ h =>
    obtain ⟨refs, hrefs, hall⟩ := hbody
    exact ⟨refs, hrefs, hall.imp fun _ _ hmade => hmade.mono hgrows⟩

/-- The children of the trees that some references stand for. -/
lemma exists_trees {refs : List CatalogPageRef} {us : List (Rope Unit UInt8 h)}
    (hfree : CollisionFree C pages (keptPages log)) (hall : Forall₂ (Made C e pages log) refs us) :
    ∃ ts : List (PageTree h), ts.map label = refs ∧
      (∀ t ∈ ts, Stored C e.scope e.sec (known pages log) t) ∧ ts.map Rope.erase = us := by
  induction hall with
  | nil => exact ⟨[], rfl, forall_mem_nil _, rfl⟩
  | cons hfirst _ ih =>
    obtain ⟨t, hlabel, hstored, herase⟩ := hfirst.tree hfree
    obtain ⟨ts, hlabels, hall, herases⟩ := ih
    refine ⟨t :: ts, ?_, forall_mem_cons.mpr ⟨hstored, hall⟩, ?_⟩
    · rw [map_cons, hlabel, hlabels]
    · rw [map_cons, herase, herases]

/-- A page over trees that are there, and that is there itself, is a tree that is there. -/
lemma BodyFor.tree (hfree : CollisionFree C pages (keptPages log))
    (hbody : BodyFor C e pages log body u)
    (hencode : Page.encode C ⟨1, e.scope, e.sec, Fin.ofNat _ h, body⟩ = .ok (r, bytes))
    (hmem : (r, bytes) ∈ known pages log) :
    ∃ t : PageTree h, t.label = r ∧ Stored C e.scope e.sec (known pages log) t ∧ t.erase = u := by
  cases h with
  | zero =>
    obtain ⟨_, piece⟩ := u
    obtain rfl : body = .leaf piece := hbody
    exact ⟨leaf r piece, rfl, ⟨bytes, hencode, hmem⟩, rfl⟩
  | succ h =>
    obtain ⟨_, us⟩ := u
    obtain ⟨refs, rfl, hall⟩ := hbody
    obtain ⟨ts, rfl, hstored, rfl⟩ := exists_trees hfree hall
    exact ⟨node r ts, rfl, stored_node.mpr ⟨⟨bytes, hencode, hmem⟩, hstored⟩, rfl⟩

end RunLemmas

/-! ## Handing pages over -/

namespace Edit

/-- The edit at the limits of the format. -/
def rope (e : Edit) : RopeEdit UInt8 :=
  ⟨e.start.val, e.stop.val, e.replacement, catalogLeafBytes, catalogFanout⟩

variable {ε : Type} {C : Crypto} {S : PageStorage ε} {e : Edit} {pages : List Emitted}
  {log log' : List Access} {h : ℕ}

variable {height : U8} {body : PageBody} {original : Option CatalogPageRef}
  {res : StreamOutcome ε CatalogPageRef}

/-- The runs of `emit`. -/
lemma emit_cases (hrun : e.emit C S height body original log = (res, log')) :
    (catalogMaxHeight < height.val ∧ res = fail (.catalog .bounds) ∧ log' = log) ∨
    height.val ≤ catalogMaxHeight ∧
      ((∃ x, Page.encode C ⟨1, e.scope, e.sec, height, body⟩ = .error x ∧
          res = mapErr .catalog (.error x) ∧ log' = log) ∨
        ∃ page, Page.encode C ⟨1, e.scope, e.sec, height, body⟩ = .ok page ∧
          ((some page.1 = original ∧ res = .ok page.1 ∧ log' = log ++ [.kept page]) ∨
            (∃ x, S.sink log page = .error x ∧ res = fail (.storage x) ∧ log' = log) ∨
            (res = .ok page.1 ∧ log' = log ++ [.stored page]))) := by
  by_cases hheight : catalogMaxHeight < height.val
  · rw [emit, reject, if_pos hheight, lift_fail_bind] at hrun
    cases hrun
    exact .inl ⟨hheight, rfl, rfl⟩
  refine .inr ⟨Nat.not_lt.mp hheight, ?_⟩
  rw [emit, reject, if_neg hheight, lift_ok_bind] at hrun
  cases hencode : Page.encode C ⟨1, e.scope, e.sec, height, body⟩ with
  | error x =>
    rw [hencode] at hrun
    refine .inl ⟨x, rfl, ?_⟩
    rcases x with x | _
    · cases hrun
      exact ⟨rfl, rfl⟩
    · cases hrun
      exact ⟨rfl, rfl⟩
  | ok page =>
    refine .inr ⟨page, rfl, ?_⟩
    rw [hencode, mapErr_ok, lift_ok_bind] at hrun
    by_cases hsame : some page.1 = original
    · rw [if_neg (not_not.mpr hsame)] at hrun
      cases hrun
      exact .inl ⟨hsame, rfl, rfl⟩
    · rw [if_pos hsame] at hrun
      refine .inr ?_
      cases hsink : S.sink log page with
      | error x =>
        have hcall : call (fun log => S.sink log page) CatalogStreamError.storage
            (fun _ => Access.stored page) log = (fail (.storage x), log) := by
          rw [call, hsink]
        rw [bind_of_error hcall] at hrun
        cases hrun
        exact .inl ⟨x, rfl, rfl, rfl⟩
      | ok _ =>
        rw [bind_of_ok (call_of_ok hsink)] at hrun
        cases hrun
        exact .inr ⟨rfl, rfl⟩

section

variable {u : Rope Unit UInt8 h} (hcovers : e.scope.validate e.sec = .ok ())
  (hbody : BodyFor C e pages log body u) (hfits : e.rope.Fits u)
  (hsize : u.size ≤ catalogMaxStreamBytes)

include hcovers hbody hfits hsize

/-- A body for an edited tree within the limits encodes, unless it stands for too many pages. -/
lemma encode_body (hheight : h ≤ catalogMaxHeight) :
    (∃ page, Page.encode C ⟨1, e.scope, e.sec, Fin.ofNat _ h, body⟩ = .ok page ∧ Counts page.1 u) ∨
      catalogMaxPageOccurrences < u.occurrences ∧
        Page.encode C ⟨1, e.scope, e.sec, Fin.ofNat _ h, body⟩ = fail .bounds := by
  cases h with
  | zero =>
    obtain ⟨_, piece⟩ := u
    obtain rfl : body = .leaf piece := hbody
    exact .inl (exists_encode_leaf hcovers hfits)
  | succ h =>
    obtain ⟨_, us⟩ := u
    obtain ⟨refs, rfl, hall⟩ := hbody
    obtain ⟨hne, hlen, hus⟩ := fits_node.mp hfits
    exact encode_index hcovers hheight (hall.imp fun _ _ hmade => hmade.counts) hne hlen
      (fun u hu => (hus u hu).1) hsize

/-- How a part of a run ends that turns something into edited trees: which pages it has asked for,
and what it returns. -/
structure Ends (C : Crypto) (S : PageStorage ε) (e : Edit) (pages : List Emitted)
    (log log' : List Access) (opened : List CatalogPageRef) (us : List (Rope Unit UInt8 h))
    (res : StreamOutcome ε (List CatalogPageRef)) : Prop where
  ran : ∃ asked, asked <+: opened ∧ Ran C e pages log log' asked ∧
    ∀ refs, res = .ok refs → asked = opened
  made : ∀ refs, res = .ok refs → List.Forall₂ (Made C e pages log') refs us
  fails : S.Honest pages → ∀ x, res = .error x →
    x = .error (.catalog .bounds) ∧ ∃ u ∈ us, catalogMaxPageOccurrences < u.occurrences

/-- What `emit` does with a body for an edited tree. -/
lemma emit_run (hheight : height.val = h)
    (horiginal : ∀ r ∈ original, ∃ p bytes, Page.encode C p = .ok (r, bytes) ∧ (r, bytes) ∈ pages)
    (hrun : e.emit C S height body original log = (res, log')) :
    Ran C e pages log log' [] ∧
      (∀ r, res = .ok r → h ≤ catalogMaxHeight ∧ Made C e pages log' r u) ∧
      ((∀ page, S.sink log page = .ok ()) → ∀ x, res = .error x → x = .error (.catalog .bounds) ∧
          (catalogMaxHeight < h ∨ catalogMaxPageOccurrences < u.occurrences)) := by
  have hofNat : height = Fin.ofNat _ h := by
    rw [Fin.ext_iff, Fin.val_ofNat, ← hheight, Nat.mod_eq_of_lt height.isLt]
  rcases emit_cases hrun with ⟨hhigh, rfl, rfl⟩ | ⟨hle, hrest⟩
  · refine ⟨Ran.refl, (by rintro r ⟨⟩), fun _ x hx => ?_⟩
    cases hx
    rw [hheight] at hhigh
    exact ⟨rfl, .inl hhigh⟩
  rw [hheight] at hle
  have hbodies := encode_body hcovers hbody hfits hsize hle
  rw [hofNat] at hrest
  rcases hrest with ⟨x, hencode, rfl, rfl⟩ | ⟨page, hencode, hrest⟩
  · -- The page does not encode, so it stands for too many.
    rw [hencode] at hbodies
    obtain ⟨page, hpage, -⟩ | ⟨hmany, hx⟩ := hbodies
    · cases hpage
    · cases hx
      refine ⟨Ran.refl, (by rintro r ⟨⟩), fun _ x hx => ?_⟩
      cases hx
      exact ⟨rfl, .inr hmany⟩
  have hcounts : Counts page.1 u := by
    rw [hencode] at hbodies
    obtain ⟨page', hpage, hcounts⟩ | ⟨-, hfail⟩ := hbodies
    · cases hpage
      exact hcounts
    · cases hfail
  rcases hrest with ⟨hsame, rfl, rfl⟩ | ⟨x, hsink, rfl, rfl⟩ | ⟨rfl, rfl⟩
  · refine ⟨ran_kept page, fun r hr => ⟨hle, ?_⟩, by rintro _ x ⟨⟩⟩
    cases hr
    obtain ⟨p, old, hold, hmem⟩ := horiginal page.1 hsame.symm
    have hknown : (page.1, old) ∈ known pages (log ++ [.kept page]) := mem_append_left _ hmem
    refine ⟨hcounts, mem_map.mpr ⟨_, hknown, rfl⟩, fun hfree => ?_⟩
    -- A page with the reference of the original is the original.
    obtain ⟨-, rfl⟩ := page_eq_of_reference hold hencode
      (hfree _ hmem page (mem_keptPages _ _))
    exact (hbody.mono (prefix_append _ _)).tree hfree hencode hknown
  · refine ⟨Ran.refl, (by rintro r ⟨⟩), fun hall x hx => ?_⟩
    rw [hall page] at hsink
    cases hsink
  · have hgrows : log <+: log ++ [Access.stored page] := prefix_append _ _
    have hknown : page ∈ known pages (log ++ [Access.stored page]) := by
      rw [known, storedPages_stored]
      exact mem_append_right _ (mem_append_right _ (mem_singleton_self _))
    refine ⟨⟨hgrows, ?_, fun hordered => ?_⟩, fun r hr => ⟨hle, ?_⟩, by rintro _ x ⟨⟩⟩
    · rw [fetchedPages_stored, append_nil]
    · rw [storedPages_stored]
      exact .append _ hordered hencode rfl rfl fun children => hbody.mem_of_index
    · cases hr
      exact ⟨hcounts, mem_map_of_mem hknown,
        fun hfree => (hbody.mono hgrows).tree hfree hencode hknown⟩

end

variable {us vs : List (Rope Unit UInt8 h)} {refs opened more : List CatalogPageRef}

/-- Everything was asked for and made. -/
lemma Ends.of_made (hran : Ran C e pages log log' opened)
    (hmade : Forall₂ (Made C e pages log') refs us) :
    Ends C S e pages log log' opened us (.ok refs) := by
  refine ⟨⟨opened, prefix_rfl, hran, fun _ _ => rfl⟩, fun refs hrefs => ?_, by rintro _ x ⟨⟩⟩
  cases hrefs
  exact hmade

/-- A failure in what comes first is a failure of the whole. -/
lemma Ends.error_append {x : Failure (CatalogStreamError ε)}
    (hends : Ends C S e pages log log' opened us (.error x)) :
    Ends C S e pages log log' (opened ++ more) (us ++ vs) (.error x) := by
  obtain ⟨asked, hasked, hran, -⟩ := hends.ran
  refine ⟨⟨asked, hasked.trans (prefix_append _ _), hran, ?_⟩, ?_, ?_⟩
  · intro refs hrefs
    cases hrefs
  · intro refs hrefs
    cases hrefs
  · intro hhonest x' hx
    obtain ⟨hx, u, hu, hmany⟩ := hends.fails hhonest x' hx
    exact ⟨hx, u, mem_append_left _ hu, hmany⟩

variable {res : StreamOutcome ε (List CatalogPageRef)}

/-- One part after another. -/
lemma Ends.append {mid : List Access} (hfirst : Ends C S e pages log mid opened us (.ok refs))
    (hrest : Ends C S e pages mid log' more vs res) :
    Ends C S e pages log log' (opened ++ more) (us ++ vs) ((refs ++ ·) <$> res) := by
  obtain ⟨asked, -, hran, hall⟩ := hfirst.ran
  obtain rfl := hall refs rfl
  obtain ⟨asked', hasked, hran', hall'⟩ := hrest.ran
  refine ⟨⟨asked ++ asked', (prefix_append_right_inj asked).mpr hasked, hran.trans hran', ?_⟩,
    ?_, ?_⟩
  · intro all hok
    obtain ⟨others, hothers, -⟩ := map_eq_ok.mp hok
    rw [hall' others hothers]
  · intro all hok
    obtain ⟨others, hothers, rfl⟩ := map_eq_ok.mp hok
    exact rel_append ((hfirst.made refs rfl).imp fun _ _ hmade => hmade.mono hran'.grows)
      (hrest.made others hothers)
  · intro hhonest x hx
    cases res with
    | ok others => cases hx
    | error y =>
      cases hx
      obtain ⟨hx, u, hu, hmany⟩ := hrest.fails hhonest x rfl
      exact ⟨hx, u, mem_append_right _ hu, hmany⟩

/-- What was made first is used up. -/
lemma Ends.andThen {h' : ℕ} {mid : List Access} {us : List (Rope Unit UInt8 h')}
    (hfirst : Ends C S e pages log mid opened us (.ok refs))
    (hrest : Ends C S e pages mid log' more vs res) :
    Ends C S e pages log log' (opened ++ more) vs res := by
  obtain ⟨asked, -, hran, hall⟩ := hfirst.ran
  obtain rfl := hall refs rfl
  obtain ⟨asked', hasked, hran', hall'⟩ := hrest.ran
  refine ⟨⟨asked ++ asked', (prefix_append_right_inj asked).mpr hasked, hran.trans hran', ?_⟩,
    hrest.made, hrest.fails⟩
  intro others hok
  rw [hall' others hok]

/-- What the loops over chunks do. -/
lemma emitAll_run (hcovers : e.scope.validate e.sec = .ok ()) (hheight : height.val = h)
    (hle : h ≤ catalogMaxHeight) {original : CatalogPageRef}
    (horiginal : ∃ p bytes, Page.encode C p = .ok (original, bytes) ∧ (original, bytes) ∈ pages)
    {bodies : List PageBody} (hbodies : Forall₂ (BodyFor C e pages log) bodies us)
    (hus : ∀ u ∈ us, e.rope.Fits u ∧ u.size ≤ catalogMaxStreamBytes)
    (hrun : e.emitAll C S height original bodies log = (res, log')) :
    Ends C S e pages log log' [] us res := by
  induction bodies generalizing us log res with
  | nil =>
    cases hbodies
    cases hrun
    exact .of_made .refl .nil
  | cons body bodies ih =>
    obtain ⟨u, us, hbody, hrest, rfl⟩ := forall₂_cons_left_iff.mp hbodies
    rw [forall_mem_cons] at hus
    rw [emitAll] at hrun
    rcases bind_cases hrun with ⟨x, hemit, rfl⟩ | ⟨r, mid, hemit, hnext⟩
    · obtain ⟨hran, -, hfails⟩ := emit_run hcovers hbody hus.1.1 hus.1.2 hheight
        (fun r hr => by cases hr; exact horiginal) hemit
      refine ⟨⟨[], prefix_rfl, hran, fun _ _ => rfl⟩, by rintro _ ⟨⟩, ?_⟩
      intro hhonest y hy
      cases hy
      obtain ⟨hbounds, hhigh | hmany⟩ := hfails (hhonest.sink log) x rfl
      · omega
      · exact ⟨hbounds, u, mem_cons_self, hmany⟩
    · obtain ⟨hran, hmade, -⟩ := emit_run hcovers hbody hus.1.1 hus.1.2 hheight
        (fun r hr => by cases hr; exact horiginal) hemit
      have hfirst : Ends C S e pages log mid [] [u] (.ok [r]) :=
        .of_made hran (.cons (hmade r rfl).2 .nil)
      have hbodies' := hrest.imp fun _ _ hbody => BodyFor.mono hran.grows hbody
      rcases bind_cases hnext with ⟨x, hall, rfl⟩ | ⟨rs, last, hall, hdone⟩
      · exact hfirst.append (ih hbodies' hus.2 hall)
      · cases hdone
        exact hfirst.append (ih hbodies' hus.2 hall)

/-! ## Visiting -/

variable {visit : CatalogPageRef → U64 → Bool → Splicing ε (List CatalogPageRef)} {inserts : Bool}

variable {t : PageTree h}

/-- Where a node ends. -/
lemma exists_end (offset : U64) (hlen : t.label.byteLen.val = t.size)
    (hbound : offset.val + t.size ≤ catalogMaxStreamBytes) :
    ∃ stop, checkedAdd offset t.label.byteLen = some stop ∧ stop.val = offset.val + t.size := by
  have hmax : catalogMaxStreamBytes = 17179869184 := rfl
  have hlt : offset.val + t.label.byteLen.val < 2 ^ 64 := by
    rw [hlen]
    omega
  exact ⟨⟨_, hlt⟩, checkedAdd_eq_some.mpr rfl, congrArg (offset.val + ·) hlen⟩

variable {ts : List (PageTree h)} {position : U64} {final : List Access}

/-- What holds of parts of a run one after another, and of a part that ends it. -/
structure Composes {α : Type} (P : List Access → List Access → List α →
    StreamOutcome ε (List CatalogPageRef) → Prop) : Prop where
  nil : ∀ log, P log log [] (.ok [])
  stop : ∀ {log log' as bs x}, P log log' as (.error x) → P log log' (as ++ bs) (.error x)
  append : ∀ {log mid log' as bs refs res}, P log mid as (.ok refs) → P mid log' bs res →
    P log log' (as ++ bs) ((refs ++ ·) <$> res)

/-- What the loop over the children does, if the visits of the children do what they should. -/
lemma visitChildren_run {P : List Access → List Access → List (Bool × ℕ × PageTree h) →
      StreamOutcome ε (List CatalogPageRef) → Prop} (hcomposes : Composes P)
    {inserted : Bool} (hlen : ∀ t ∈ ts, t.label.byteLen.val = t.size)
    (hend : position.val + (ts.map size).sum ≤ catalogMaxStreamBytes)
    (hgrows : ∀ r offset inserts, (visit r offset inserts).Grows) (hfinal : log' <+: final)
    (hvisit : ∀ c ∈ e.rope.assign (inserts && !inserted) position.val ts, ∀ offset : U64,
      offset.val = c.2.1 → ∀ log res log', log' <+: final →
        visit c.2.2.label offset c.1 log = (res, log') → P log log' [c] res)
    {res : StreamOutcome ε (List CatalogPageRef × U64 × Bool)}
    (hrun : e.visitChildren visit inserts (ts.map label) position inserted log = (res, log')) :
    P log log' (e.rope.assign (inserts && !inserted) position.val ts) (Prod.fst <$> res) ∧
      ∀ out, res = .ok out → out.2.1.val = position.val + (ts.map size).sum ∧
        out.2.2 = (inserted || (inserts && !ts.isEmpty)) := by
  induction ts generalizing position inserted log res with
  | nil =>
    cases hrun
    refine ⟨hcomposes.nil _, fun out hout => ?_⟩
    cases hout
    exact ⟨rfl, by simp⟩
  | cons t ts ih =>
    rw [forall_mem_cons] at hlen
    rw [map_cons, sum_cons] at hend
    have hmax : catalogMaxStreamBytes = 17179869184 := rfl
    obtain ⟨childEnd, hadd, hposition⟩ := exists_end position hlen.1 (by omega)
    -- The child that takes the replacement is the one `assign` gives it to.
    have htakes : decide (e.start < childEnd) = decide (e.rope.start < position.val + t.size) := by
      rw [decide_eq_decide, Fin.lt_def, hposition]
      rfl
    have hnone : (ts.map label).isEmpty = ts.isEmpty := isEmpty_map
    rw [RopeEdit.assign, forall_mem_cons] at hvisit
    rw [map_cons, visitChildren, hadd, okOr, lift_ok_bind, htakes, hnone] at hrun
    simp only at hrun hvisit
    rw [RopeEdit.assign]
    generalize htake : (inserts && !inserted &&
      (decide (e.rope.start < position.val + t.size) || ts.isEmpty)) = takes at hrun hvisit ⊢
    have hpending : (inserts && !inserted && !takes) = (inserts && !(inserted || takes)) := by
      rw [Bool.not_or, Bool.and_assoc]
    rw [hpending] at hvisit ⊢
    have hend' : childEnd.val + (ts.map size).sum ≤ catalogMaxStreamBytes := by omega
    rcases bind_cases hrun with ⟨x, hfirst, rfl⟩ | ⟨changed, mid, hfirst, hrest⟩
    · exact ⟨hcomposes.stop (hvisit.1 position rfl _ _ _ hfinal hfirst), by rintro out ⟨⟩⟩
    · have hmid := ((e.grows_visitChildren hgrows _ _ _ _).bind fun _ => grows_pure _).of_run hrest
      have hdone := hvisit.1 position rfl _ _ _ (hmid.trans hfinal) hfirst
      rw [← hposition] at hvisit ⊢
      rcases bind_cases hrest with ⟨x, hothers, rfl⟩ | ⟨⟨rest, out⟩, last, hothers, hpure⟩
      · obtain ⟨hends, -⟩ := ih hlen.2 hend' hvisit.2 hothers
        exact ⟨hcomposes.append hdone hends, by rintro out ⟨⟩⟩
      · cases hpure
        obtain ⟨hends, hout⟩ := ih hlen.2 hend' hvisit.2 hothers
        refine ⟨hcomposes.append hdone hends, fun out hout' => ?_⟩
        cases hout'
        obtain ⟨hposition', hinserted⟩ := hout _ rfl
        refine ⟨?_, ?_⟩
        · rw [hposition', hposition, map_cons, sum_cons, Nat.add_assoc]
        · simp only at hinserted
          rw [hinserted, ← htake]
          cases inserted <;> cases inserts <;> cases ts <;> simp

/-- The parts of a run turn children into edited trees. -/
lemma composes_ends (C : Crypto) (S : PageStorage ε) (e : Edit) (pages : List Emitted) :
    Composes fun log log' (cs : List (Bool × ℕ × PageTree h)) res =>
    Ends C S e pages log log' (cs.flatMap fun c => e.rope.opened c.1 c.2.1 c.2.2)
      (cs.flatMap fun c => e.rope.edit c.1 c.2.1 c.2.2) res where
  nil _ := .of_made .refl .nil
  stop hends := by
    rw [flatMap_append, flatMap_append]
    exact hends.error_append
  append hfirst hrest := by
    rw [flatMap_append, flatMap_append]
    exact hfirst.append hrest

variable {offset : U64}

/-- The two ends of a node, and what the tests of `visit` say about them. -/
lemma visitPage_eq (visit : CatalogPageRef → U64 → Bool → Splicing ε (List CatalogPageRef))
    (inserts : Bool) (hs : Stored C e.scope e.sec pages t)
    (hbound : offset.val + t.size ≤ catalogMaxStreamBytes) :
    (e.rope.Drops inserts offset.val t.size →
      e.visitPage C S visit t.label offset inserts = pure []) ∧
    (¬ e.rope.Drops inserts offset.val t.size → e.rope.Keeps inserts offset.val t.size →
      e.visitPage C S visit t.label offset inserts = pure [t.label]) ∧
    (¬ e.rope.Drops inserts offset.val t.size → ¬ e.rope.Keeps inserts offset.val t.size →
      ∃ stop : U64, stop.val = offset.val + t.size ∧
        e.visitPage C S visit t.label offset inserts = do
          let page ← fetchPage C e.scope e.sec S.fetch Access.fetched t.label
          e.visitBody C S visit t.label offset stop inserts page.body) := by
  obtain ⟨stop, hadd, hstop⟩ := exists_end offset hs.byteLen hbound
  have hdrops : (inserts = false ∧ e.start ≤ offset ∧ stop ≤ e.stop) ↔
      e.rope.Drops inserts offset.val t.size := by
    rw [Fin.le_def, Fin.le_def, hstop]
    rfl
  have hkeeps : (inserts = false ∧ (stop ≤ e.start ∨ e.stop ≤ offset)) ↔
      e.rope.Keeps inserts offset.val t.size := by
    rw [Fin.le_def, Fin.le_def, hstop]
    rfl
  rw [visitPage, hadd, okOr, lift_ok_bind]
  refine ⟨fun hd => ?_, fun hd hk => ?_, fun hd hk => ⟨stop, hstop, ?_⟩⟩
  · rw [if_pos (hdrops.mpr hd)]
  · rw [if_neg (mt hdrops.mp hd), if_pos (hkeeps.mpr hk)]
  · rw [if_neg (mt hdrops.mp hd), if_neg (mt hkeeps.mp hk)]

/-- The bodies of the nodes over what some children have become. -/
lemma bodyFor_group (hall : Forall₂ (Made C e pages log) refs us) :
    Forall₂ (BodyFor C e pages log) ((chunks catalogFanout refs).map .index) (e.rope.group us) := by
  rw [RopeEdit.group, forall₂_map_left_iff, forall₂_map_right_iff]
  exact (forall₂_chunks (by decide) hall).imp fun refs us hpart => ⟨refs, rfl, hpart⟩

/-- The bytes that a leaf that was fetched is cut to are those of the edit. -/
lemma visitBody_leaf_eq {l : CatalogPageRef} {piece : List UInt8}
    (hlen : l.byteLen.val = piece.length) (stop : U64) :
    e.visitBody C S visit l offset stop inserts (.leaf piece) =
      e.emitAll C S 0 l
        ((chunks catalogLeafBytes (e.rope.spliced inserts offset.val piece)).map .leaf) := by
  rw [visitBody, hlen, ← take_eq_take_min, ← drop_eq_drop_min]
  rfl

/-- What comes out of a leaf that was fetched. -/
lemma visitBody_leaf {l : CatalogPageRef} {piece : List UInt8}
    (hs : Stored C e.scope e.sec pages (leaf l piece)) (hvalid : e.rope.Valid) {stop : U64}
    (hrun : e.visitBody C S visit l offset stop inserts (.leaf piece) log = (res, log')) :
    Ends C S e pages log log' []
      ((chunks e.rope.piece (e.rope.spliced inserts offset.val piece)).map (leaf ())) res := by
  rw [visitBody_leaf_eq hs.counts_leaf.2.1] at hrun
  refine emitAll_run hs.covers rfl (Nat.zero_le _) ⟨_, hs.page⟩ ?_ ?_ hrun
  · rw [forall₂_map_left_iff, forall₂_map_right_iff]
    exact forall₂_same.mpr fun chunk _ => rfl
  · rw [forall_mem_map]
    intro chunk hchunk
    have hle : chunk.length ≤ catalogLeafBytes := (ne_nil_of_mem_chunks hvalid.piece_pos hchunk).2
    exact ⟨hle, hle.trans (by decide)⟩

/-- What comes out of an index page that was fetched, if the visits of the children do what they
should. -/
lemma visitBody_node {l : CatalogPageRef}
    (hs : Stored C e.scope e.sec pages (node l ts)) (hvalid : e.rope.Valid)
    {stop : U64} (hbound : offset.val + (node l ts).size ≤ catalogMaxStreamBytes)
    (hstop : stop.val = offset.val + (node l ts).size)
    (hus : ∀ u ∈ e.rope.group ((e.rope.assign inserts offset.val ts).flatMap fun c =>
        e.rope.edit c.1 c.2.1 c.2.2), e.rope.Fits u ∧ u.size ≤ catalogMaxStreamBytes)
    (hgrows : ∀ r offset inserts, (visit r offset inserts).Grows) (hfinal : log' <+: final)
    (hvisit : ∀ c ∈ e.rope.assign inserts offset.val ts, ∀ place : U64, place.val = c.2.1 →
        ∀ log res log', log' <+: final → visit c.2.2.label place c.1 log = (res, log') →
          Ends C S e pages log log' (e.rope.opened c.1 c.2.1 c.2.2)
            (e.rope.edit c.1 c.2.1 c.2.2) res)
    (hrun : e.visitBody C S visit l offset stop inserts (.index (ts.map label)) log = (res, log')) :
    Ends C S e pages log log'
      ((e.rope.assign inserts offset.val ts).flatMap fun c => e.rope.opened c.1 c.2.1 c.2.2)
      (e.rope.group ((e.rope.assign inserts offset.val ts).flatMap fun c =>
        e.rope.edit c.1 c.2.1 c.2.2)) res := by
  obtain ⟨hne, -⟩ := hs.counts_node
  have hlen : ∀ t ∈ ts, t.label.byteLen.val = t.size := fun t ht =>
    ((stored_node.mp hs).2 t ht).byteLen
  rw [size_node] at hbound hstop
  have hpending : (inserts && !false) = inserts := by simp
  rw [← hpending] at hvisit
  have hloop : ∀ {out mid}, mid <+: final → e.visitChildren visit inserts (ts.map label) offset
      false log = (out, mid) → _ := fun hmid hchildren =>
    visitChildren_run (composes_ends C S e pages) hlen hbound hgrows hmid
      (fun c hc place hplace log res log' hlog hchild => by
        rw [flatMap_singleton, flatMap_singleton]
        exact hvisit c hc place hplace log res log' hlog hchild) hchildren
  rw [visitBody] at hrun
  rcases bind_cases hrun with ⟨x, hchildren, rfl⟩ | ⟨⟨changed, out⟩, mid, hchildren, hemits⟩
  · obtain ⟨hends, -⟩ := hloop hfinal hchildren
    rw [hpending] at hends
    obtain ⟨asked, hasked, hran, -⟩ := hends.ran
    refine ⟨⟨asked, hasked, hran, by rintro _ ⟨⟩⟩, by rintro _ ⟨⟩, ?_⟩
    -- A child that stands for too many pages makes its parent do so.
    intro hhonest y hy
    cases hy
    obtain ⟨hbounds, u, hu, hmany⟩ := hends.fails hhonest x rfl
    obtain ⟨v, hv, hle⟩ := exists_mem_group hvalid.arity_pos hu
    exact ⟨hbounds, v, hv, hmany.trans_le hle⟩
  · have hmid := ((grows_lift _).bind fun _ => e.grows_emitAll C S _ _ _).of_run hemits
    obtain ⟨hends, hout⟩ := hloop (hmid.trans hfinal) hchildren
    rw [hpending] at hends
    obtain ⟨hposition, hinserted⟩ := hout _ rfl
    have hguard : ¬ (out.1 ≠ stop ∨ (inserts = true ∧ out.2 = false)) := by
      rw [not_or, not_not, Fin.ext_iff, hstop]
      refine ⟨hposition, ?_⟩
      rintro ⟨rfl, hnone⟩
      rw [hinserted] at hnone
      simp [hne] at hnone
    simp only [reject, if_neg hguard, lift_ok_bind] at hemits
    have hheight := hs.height
    have hall := emitAll_run hs.covers hheight.2 hheight.1 ⟨_, hs.page⟩
      (bodyFor_group (hends.made changed rfl)) hus hemits
    have hboth := hends.andThen hall
    rw [append_nil] at hboth
    exact hboth

/-- A tree that verifies is within the limits of the edit. -/
lemma fits_of_stored (e : Edit) {scope : CatalogScope} {sec : CatalogSection}
    (hs : Stored C scope sec pages t) : e.rope.Fits t := by
  induction t using inductionOn with
  | leaf l piece => exact hs.counts_leaf.1
  | node l ts ih =>
    obtain ⟨hne, hlen, -⟩ := hs.counts_node
    exact fits_node.mpr ⟨hne, hlen, fun c hc =>
      ⟨hs.size_pos hc, ih c hc ((stored_node.mp hs).2 c hc)⟩⟩

/-- A page that comes out as it was is not handed over. -/
lemma emitAll_same {r : CatalogPageRef}
    (hencode : Page.encode C ⟨1, e.scope, e.sec, height, body⟩ = .ok (r, bytes)) :
    e.emitAll C S height r [body] log = (.ok [r], log ++ [.kept (r, bytes)]) := by
  have hheight : ¬ catalogMaxHeight < height.val :=
    Nat.not_lt.mpr (Page.counts_bounds (Page.encode_eq_ok.mp hencode).1).1.height_le
  have hemit : e.emit C S height body (some r) log = (.ok r, log ++ [.kept (r, bytes)]) := by
    rw [emit, reject, if_neg hheight, lift_ok_bind, hencode, mapErr_ok, lift_ok_bind,
      if_neg (not_not.mpr rfl)]
    rfl
  rw [emitAll, bind_of_ok hemit]
  rfl

/-- The parts of a run hand nothing over and return children as they were. -/
lemma composes_same : Composes fun log log' (cs : List (Bool × ℕ × PageTree h))
    (res : StreamOutcome ε (List CatalogPageRef)) =>
    storedPages log' = storedPages log ∧
      ∀ refs, res = .ok refs → refs = cs.map fun c => c.2.2.label where
  nil _ := ⟨rfl, by rintro refs ⟨⟩; rfl⟩
  stop hstopped := ⟨hstopped.1, by rintro refs ⟨⟩⟩
  append hfirst hrest := by
    refine ⟨hrest.1.trans hfirst.1, fun refs hrefs => ?_⟩
    obtain ⟨others, hothers, rfl⟩ := map_eq_ok.mp hrefs
    rw [hfirst.2 _ rfl, hrest.2 others hothers, map_append]

section

variable (hs : Stored C e.scope e.sec pages t) (hfaithful : S.Faithful C pages final)
  (hfinal : log' <+: final)

include hs hfaithful hfinal

/-- A page that is asked for: it is the page of the node, and an honest storage has it. -/
lemma fetchPage_run {res : StreamOutcome ε Page}
    (hrun : fetchPage C e.scope e.sec S.fetch Access.fetched t.label log = (res, log')) :
    (∃ asked, asked <+: [t.label] ∧ Ran C e pages log log' asked ∧
      ∀ p, res = .ok p → asked = [t.label]) ∧ (∀ p, res = .ok p → p = pageOf e.scope e.sec t) ∧
    (S.Honest pages → ∀ x, res ≠ .error x) := by
  refine ⟨?_, fun p hp => ?_, fun hhonest x hx => ?_⟩
  · rcases fetchPage_cases hrun with ⟨x, rfl, rfl⟩ | ⟨bytes, -, rfl, -⟩
    · exact ⟨[], nil_prefix, Ran.refl, by rintro p ⟨⟩⟩
    · exact ⟨[t.label], prefix_rfl, ran_fetched (t.label, bytes), fun _ _ => rfl⟩
  · rw [hp] at hrun
    obtain ⟨bytes, hfetch, rfl, hencode, -, -⟩ := fetchPage_eq_ok.mp hrun
    exact hs.eq_of_encode hencode (hfaithful _ _ _ hfetch hfinal)
  · obtain ⟨bytes, hencode, hmem⟩ := hs.page
    have hok : fetchPage C e.scope e.sec S.fetch Access.fetched t.label log =
        (.ok (pageOf e.scope e.sec t), log ++ [.fetched (t.label, bytes)]) :=
      fetchPage_eq_ok.mpr ⟨bytes, hhonest.fetch log _ hmem, rfl, hencode, rfl, rfl⟩
    rw [hok, hx] at hrun
    cases hrun

variable (hbound : offset.val + t.size ≤ catalogMaxStreamBytes)

include hbound

/-- The visit of a page, if what follows its fetch does what it should. -/
lemma visitPage_run (hgrows : ∀ r offset inserts, (visit r offset inserts).Grows)
    (below : List CatalogPageRef)
    (hopened : ¬ e.rope.Drops inserts offset.val t.size → ¬ e.rope.Keeps inserts offset.val t.size →
        e.rope.opened inserts offset.val t = t.label :: below ∧
        ∀ stop : U64, stop.val = offset.val + t.size → ∀ mid,
          e.visitBody C S visit t.label offset stop inserts (bodyOf t) mid = (res, log') →
            Ends C S e pages mid log' below (e.rope.edit inserts offset.val t) res)
    (hrun : e.visitPage C S visit t.label offset inserts log = (res, log')) :
    Ends C S e pages log log' (e.rope.opened inserts offset.val t)
      (e.rope.edit inserts offset.val t) res := by
  obtain ⟨hdropped, hkept, hopen⟩ := visitPage_eq (S := S) visit inserts hs hbound
  by_cases hdrops : e.rope.Drops inserts offset.val t.size
  · rw [hdropped hdrops] at hrun
    cases hrun
    rw [edit_of_drops hdrops, opened_of_skips (.inl hdrops)]
    exact .of_made .refl .nil
  by_cases hkeeps : e.rope.Keeps inserts offset.val t.size
  · rw [hkept hdrops hkeeps] at hrun
    cases hrun
    rw [edit_of_keeps hdrops hkeeps, opened_of_skips (.inr hkeeps)]
    exact .of_made .refl (.cons hs.made .nil)
  obtain ⟨hlist, hbody⟩ := hopened hdrops hkeeps
  obtain ⟨stop, hstop, heq⟩ := hopen hdrops hkeeps
  rw [heq] at hrun
  rw [hlist]
  rcases bind_cases hrun with ⟨x, hfetch, rfl⟩ | ⟨page, mid, hfetch, hrest⟩
  · obtain ⟨⟨asked, hasked, hran, -⟩, -, hhave⟩ := fetchPage_run hs hfaithful hfinal hfetch
    refine ⟨⟨asked, hasked.trans ((prefix_cons_inj _).mpr nil_prefix), hran,
      by rintro _ ⟨⟩⟩, by rintro _ ⟨⟩, fun hhonest => ?_⟩
    exact absurd rfl (hhave hhonest x)
  · have hmid := (e.grows_visitBody C S hgrows _ _ _ _ _).of_run hrest
    obtain ⟨⟨asked, -, hran, hall⟩, hpage, -⟩ :=
      fetchPage_run hs hfaithful (hmid.trans hfinal) hfetch
    obtain rfl := hall page rfl
    obtain rfl := hpage page rfl
    have hfetched : Ends C S e pages log mid [t.label] ([] : List (Rope Unit UInt8 h)) (.ok []) :=
      .of_made hran .nil
    exact hfetched.andThen (hbody stop hstop mid hrest)

/-- A page that is spared, if what follows its fetch leaves it as it was. -/
lemma visitPage_same (hgrows : ∀ r offset inserts, (visit r offset inserts).Grows)
    (hspares : e.rope.Spares offset.val t inserts)
    (hrun : e.visitPage C S visit t.label offset inserts log = (res, log'))
    (hbody : e.rope.Rewrites offset.val t.pieces → ∀ (stop : U64) mid,
      e.visitBody C S visit t.label offset stop true (bodyOf t) mid = (res, log') →
        storedPages log' = storedPages mid ∧ ∀ refs, res = .ok refs → refs = [t.label]) :
    storedPages log' = storedPages log ∧ ∀ refs, res = .ok refs → refs = [t.label] := by
  obtain ⟨-, hkept, hopen⟩ := visitPage_eq (S := S) visit inserts hs hbound
  cases inserts with
  | false =>
    rw [hkept hspares.1 hspares.2] at hrun
    cases hrun
    exact ⟨rfl, by rintro refs ⟨⟩; rfl⟩
  | true =>
    obtain ⟨stop, -, heq⟩ := hopen not_drops_true not_keeps_true
    rw [heq] at hrun
    rcases bind_cases hrun with ⟨x, hfetch, rfl⟩ | ⟨page, mid, hfetch, hrest⟩
    · refine ⟨?_, by rintro refs ⟨⟩⟩
      rcases fetchPage_cases hfetch with ⟨_, -, rfl⟩ | ⟨bytes, -, rfl, -⟩
      · rfl
      · exact storedPages_fetched _ _
    · obtain ⟨bytes, -, hmid, -⟩ := fetchPage_eq_ok.mp hfetch
      have hgrown := (e.grows_visitBody C S hgrows _ _ _ _ _).of_run hrest
      obtain rfl := (fetchPage_run hs hfaithful (hgrown.trans hfinal) hfetch).2.1 page rfl
      have hdone := hbody hspares stop mid hrest
      rw [hmid, storedPages_fetched] at hdone
      exact hdone

/-- **The code refines the edit.**  Whatever the callbacks answer, as long as no other page passes
for a page of the tree: the visit of a tree asks for the pages of the nodes that are opened, hands
over pages in order, and returns references to what the tree becomes; and with honest callbacks it
fails only if some of that stands for too many pages. -/
theorem visit_run (hvalid : e.rope.Valid) (hpos : inserts = false → 0 < t.size)
    (hsmall : ((e.rope.edit inserts offset.val t).flatMap content).length ≤
      catalogMaxStreamBytes) (hrun : e.visit C S h t.label offset inserts log = (res, log')) :
    Ends C S e pages log log' (e.rope.opened inserts offset.val t)
      (e.rope.edit inserts offset.val t) res := by
  induction t using inductionOn generalizing offset inserts log log' res with
  | leaf l piece =>
    refine visitPage_run hs hfaithful hfinal hbound (fun _ _ _ => grows_lift _) []
      (fun hdrops hkeeps => ⟨?_, ?_⟩) hrun
    · exact opened_leaf hdrops hkeeps
    · intro stop _ mid hbody
      rw [edit_leaf hdrops hkeeps]
      exact visitBody_leaf hs hvalid hbody
  | node l ts ih =>
    have hfits := fits_of_stored e hs
    refine visitPage_run hs hfaithful hfinal hbound (e.grows_visit C S _)
      ((e.rope.assign inserts offset.val ts).flatMap fun c => e.rope.opened c.1 c.2.1 c.2.2)
      (fun hdrops hkeeps => ⟨?_, ?_⟩) hrun
    · exact opened_node hdrops hkeeps
    · intro stop hstop mid hbody
      have hus : ∀ u ∈ e.rope.edit inserts offset.val (node l ts),
          e.rope.Fits u ∧ u.size ≤ catalogMaxStreamBytes := fun u hu =>
        ⟨(fits_edit hvalid hfits hpos u hu).2, (size_le_of_mem hu).trans hsmall⟩
      rw [edit_node hdrops hkeeps] at hus hsmall ⊢
      rw [content_group hvalid.arity_pos, flatMap_assoc] at hsmall
      refine visitBody_node hs hvalid hbound hstop hus (e.grows_visit C S _) hfinal ?_ hbody
      intro c hc place hplace log res log' hlog hchild
      have hmem := mem_of_mem_assign hc
      obtain ⟨-, hhi⟩ := bounds_of_mem_assign hc
      rw [← size_node l] at hhi
      rw [← hplace] at hhi ⊢
      refine ih c.2.2 hmem ((stored_node.mp hs).2 _ hmem) hlog (by omega)
        (fun _ => hs.size_pos hmem) ?_ hchild
      rw [hplace]
      exact (sublist_flatten_of_mem (mem_map_of_mem (f := fun c =>
        (e.rope.edit c.1 c.2.1 c.2.2).flatMap content) hc)).length_le.trans hsmall

/-- A tree that is spared stays as it was, and nothing is handed over. -/
theorem visit_same (hvalid : e.rope.Valid) (hpos : 0 < t.size)
    (hspares : e.rope.Spares offset.val t inserts)
    (hrun : e.visit C S h t.label offset inserts log = (res, log')) :
    storedPages log' = storedPages log ∧ ∀ refs, res = .ok refs → refs = [t.label] := by
  induction t using inductionOn generalizing offset inserts log log' res with
  | leaf l piece =>
    refine visitPage_same hs hfaithful hfinal hbound (fun _ _ _ => grows_lift _) hspares hrun
      fun hsame stop mid hbody => ?_
    obtain ⟨bytes, hencode, -⟩ := hs.page
    have hpage : Page.encode C ⟨1, e.scope, e.sec, 0, .leaf piece⟩ = .ok (l, bytes) :=
      hencode
    have hclip := hsame.same
    rw [pieces_leaf, flatten_singleton] at hclip
    have hne : piece ≠ [] := ne_nil_of_length_pos hpos
    rw [bodyOf_leaf, label_leaf, visitBody_leaf_eq hs.counts_leaf.2.1,
      spliced_clip hvalid.le hclip, chunks_of_le hne hs.counts_leaf.1, map_singleton,
      emitAll_same hpage] at hbody
    cases hbody
    exact ⟨storedPages_kept _ _, by rintro refs ⟨⟩; rfl⟩
  | @node k l ts ih =>
    refine visitPage_same hs hfaithful hfinal hbound (e.grows_visit C S _) hspares hrun
      fun hsame stop mid hbody => ?_
    obtain ⟨bytes, hencode, -⟩ := hs.page
    have hpage : Page.encode C ⟨1, e.scope, e.sec, Fin.ofNat _ (k + 1),
        .index (ts.map label)⟩ = .ok (l, bytes) := hencode
    obtain ⟨hne, hlen, -⟩ := hs.counts_node
    have hchildren := (stored_node.mp hs).2
    rw [pieces_node] at hsame
    rw [size_node] at hbound
    have hloop : ∀ {out last}, last <+: final → e.visitChildren (e.visit C S k) true
        (ts.map label) offset false mid = (out, last) → _ := fun hlast hout =>
      visitChildren_run composes_same (fun t ht => (hchildren t ht).byteLen) hbound
        (e.grows_visit C S _) hlast
        (fun c hc place hplace log res log' hlog hchild => by
          have hmem := mem_of_mem_assign hc
          obtain ⟨-, hhi⟩ := bounds_of_mem_assign hc
          rw [← hplace] at hhi
          have hspared := spares_of_mem_assign hvalid.le (fun t ht => hs.size_pos ht)
            (fun _ => hsame) (fun h => Bool.noConfusion h) c hc
          rw [← hplace] at hspared
          exact ih c.2.2 hmem (hchildren _ hmem) hlog (hhi.trans hbound) (hs.size_pos hmem) hspared
            hchild) hout
    rw [bodyOf_node, visitBody] at hbody
    rcases bind_cases hbody with ⟨x, hout, rfl⟩ | ⟨⟨changed, out⟩, last, hout, hrest⟩
    · exact ⟨(hloop hfinal hout).1.1, by rintro refs ⟨⟩⟩
    · have hlast := ((grows_lift _).bind fun _ => e.grows_emitAll C S _ _ _).of_run hrest
      obtain ⟨⟨hstored, hlabels⟩, -⟩ := hloop (hlast.trans hfinal) hout
      obtain rfl : changed = ts.map label := (hlabels changed rfl).trans
        (map_map.symm.trans (congrArg (List.map label) (map_assign ts)))
      rcases bind_cases hrest with ⟨x, hguard, rfl⟩ | ⟨_, last', hguard, hemits⟩
      · obtain rfl : last = log' := congrArg Prod.snd hguard
        exact ⟨hstored, by rintro refs ⟨⟩⟩
      · obtain rfl : last = last' := congrArg Prod.snd hguard
        have hlength : (ts.map label).length ≤ catalogFanout := by
          rw [length_map]
          exact hlen
        have hheight : l.height = Fin.ofNat _ (k + 1) := (Page.encode_eq_ok.mp hpage).2.2.2.2.2
        rw [label_node, chunks_of_le (by simpa using hne) hlength, map_singleton,
          hheight, emitAll_same hpage] at hemits
        cases hemits
        rw [storedPages_kept]
        exact ⟨hstored, by rintro refs ⟨⟩; rfl⟩

end

/-! ## The whole splice -/

/-- What `join` does with references to what the old root has become. -/
lemma join_run (hcovers : e.scope.validate e.sec = .ok ()) (hheight : height.val = h)
    (hmax : h ≤ catalogMaxHeight) (hmade : Forall₂ (Made C e pages log) refs us)
    (hus : ∀ u ∈ us, 0 < u.size ∧ e.rope.Fits u) (hlen : us.length ≤ catalogFanout)
    (hsmall : (us.flatMap content).length ≤ catalogMaxStreamBytes)
    {res : StreamOutcome ε CatalogPageRef}
    (hrun : e.join C S height refs log = (res, log')) :
    Ran C e pages log log' [] ∧
      (∀ r, res = .ok r → (RopeEdit.join us).1 ≤ catalogMaxHeight ∧
        Made C e pages log' r (RopeEdit.join us).2) ∧
      (S.Honest pages → ∀ x, res = .error x → x = .error (.catalog .bounds) ∧
        (catalogMaxHeight < (RopeEdit.join us).1 ∨
          catalogMaxPageOccurrences < (RopeEdit.join us).2.occurrences)) := by
  have hnone : ∀ r ∈ (none : Option CatalogPageRef), ∃ p bytes,
      Page.encode C p = .ok (r, bytes) ∧ (r, bytes) ∈ pages := by simp
  cases hmade with
  | nil =>
    have hempty : e.rope.Fits (leaf () ([] : List UInt8)) := Nat.zero_le _
    obtain ⟨hran, hok, hfails⟩ := emit_run hcovers
      (show BodyFor C e pages log (.leaf []) (leaf () []) from rfl)
      hempty (Nat.zero_le _) rfl hnone hrun
    exact ⟨hran, hok, fun hhonest => hfails (hhonest.sink log)⟩
  | @cons r u refs us hfirst hrest =>
    cases hrest with
    | nil =>
      cases hrun
      refine ⟨Ran.refl, fun r' hr => ?_, by rintro _ x ⟨⟩⟩
      cases hr
      exact ⟨hmax, hfirst⟩
    | @cons r' u' refs us hsecond hothers =>
      have hle : catalogMaxHeight = 3 := rfl
      have hsucc : (Fin.ofNat (2 ^ 8) (height.val + 1)).val = h + 1 := by
        rw [Fin.val_ofNat, hheight]
        exact Nat.mod_eq_of_lt (by omega)
      have hfits : e.rope.Fits (node () (u :: u' :: us)) :=
        fits_node.mpr ⟨cons_ne_nil _ _, hlen, hus⟩
      obtain ⟨hran, hok, hfails⟩ := emit_run hcovers
        (show BodyFor C e pages log (.index (r :: r' :: refs))
          (node () (u :: u' :: us)) from ⟨_, rfl, .cons hfirst (.cons hsecond hothers)⟩)
        hfits hsmall hsucc hnone hrun
      exact ⟨hran, hok, fun hhonest => hfails (hhonest.sink log)⟩

/-- The range is in order and within the stream, and neither the replacement nor the stream after it
is too long. -/
structure Admissible (e : Edit) (size : ℕ) : Prop where
  le : e.start.val ≤ e.stop.val
  stop_le : e.stop.val ≤ size
  replacement_le : e.replacement.length ≤ catalogLeafBytes
  length_le : size - (e.stop.val - e.start.val) + e.replacement.length ≤ catalogMaxStreamBytes

lemma Admissible.valid {size : ℕ} (hadmissible : e.Admissible size) : e.rope.Valid where
  le := hadmissible.le
  piece_pos := show 0 < catalogLeafBytes by decide
  arity_pos := show 0 < catalogFanout by decide
  replacement_le := hadmissible.replacement_le

section

variable (hs : Stored C e.scope e.sec pages t)

include hs

/-- A splice of a tree that verifies: it is refused, it does nothing, or it visits the tree. -/
lemma splice_eq :
    (¬ e.Admissible t.size → t.label.splice C S e.scope e.sec e.start e.stop e.replacement =
        lift (fail (.catalog .bounds))) ∧
    (e.Admissible t.size → t.label.splice C S e.scope e.sec e.start e.stop e.replacement =
        if e.start = e.stop ∧ e.replacement = [] then pure t.label
        else do
          let roots ← e.visit C S h t.label 0 true
          let root ← e.join C S t.label.height roots
          lift (reject (root.byteLen.val ≠
            t.size - (e.stop.val - e.start.val) + e.replacement.length) (.catalog .invalidPage))
          pure root) := by
  have hvalid : t.label.validate = .ok () := CatalogPageRef.validate_eq_ok.mpr hs.valid
  have hsize := hs.byteLen
  rw [CatalogPageRef.splice, hvalid, hs.covers, mapErr_ok, lift_ok_bind, lift_ok_bind, hs.height.2]
  simp only [Fin.lt_def, hsize]
  constructor
  · intro hnot
    by_cases hrange : e.stop.val < e.start.val ∨ t.size < e.stop.val ∨
        catalogLeafBytes < e.replacement.length
    · rw [reject, if_pos hrange, lift_fail_bind]
    · rw [reject, if_neg hrange, lift_ok_bind, reject, if_pos, lift_fail_bind]
      by_contra hlong
      exact hnot ⟨by omega, by omega, by omega, by omega⟩
  · intro hadmissible
    have hrange : ¬ (e.stop.val < e.start.val ∨ t.size < e.stop.val ∨
        catalogLeafBytes < e.replacement.length) := by
      have := hadmissible.le
      have := hadmissible.stop_le
      have := hadmissible.replacement_le
      omega
    rw [reject, if_neg hrange, lift_ok_bind, reject,
      if_neg (Nat.not_lt.mpr hadmissible.length_le), lift_ok_bind]

/-- The stream after the splice is as long as the code says. -/
lemma size_result (hadmissible : e.Admissible t.size) :
    (e.rope.result t).2.size = t.size - (e.stop.val - e.start.val) + e.replacement.length := by
  have hle := hadmissible.le
  have hstop := hadmissible.stop_le
  rw [size, content_result hadmissible.valid (fits_of_stored e hs) (hle.trans hstop),
    RopeEdit.spliced]
  simp only [if_true, Nat.sub_zero, length_append, length_take, length_drop]
  rw [← size]
  simp only [rope]
  omega

/-- **The run of a splice.**  What it asks for are pages of opened nodes, what it returns stands for
the result of the edit, and with honest callbacks it fails only if the result is beyond a limit. -/
theorem splice_run (hadmissible : e.Admissible t.size)
    (hnoop : ¬ (e.start = e.stop ∧ e.replacement = [])) (hfaithful : S.Faithful C pages log')
    {res : StreamOutcome ε CatalogPageRef}
    (hrun : t.label.splice C S e.scope e.sec e.start e.stop e.replacement log = (res, log')) :
    (∃ asked, asked <+: e.rope.opened true 0 t ∧ Ran C e pages log log' asked) ∧
      (∀ r, res = .ok r → (e.rope.result t).1 ≤ catalogMaxHeight ∧
        Made C e pages log' r (e.rope.result t).2) ∧
      (S.Honest pages → ∀ x, res = .error x → x = .error (.catalog .bounds) ∧
        (catalogMaxHeight < (e.rope.result t).1 ∨
          catalogMaxPageOccurrences < (e.rope.result t).2.occurrences)) := by
  have hvalid := hadmissible.valid
  have hfits := fits_of_stored e hs
  have hheight := hs.height
  have hbound : (0 : U64).val + t.size ≤ catalogMaxStreamBytes :=
    (Nat.zero_add _).trans_le hs.size_le
  have hsmall : ((e.rope.edit true 0 t).flatMap content).length ≤ catalogMaxStreamBytes := by
    have hsize := size_result hs hadmissible
    rw [size, RopeEdit.result, content_join] at hsize
    rw [hsize]
    exact hadmissible.length_le
  have hpos : true = false → 0 < t.size := fun h => Bool.noConfusion h
  rw [(splice_eq hs).2 hadmissible, if_neg hnoop] at hrun
  rcases bind_cases hrun with ⟨x, hvisit, rfl⟩ | ⟨roots, mid, hvisit, hrest⟩
  · obtain ⟨⟨asked, hasked, hran, -⟩, -, hfails⟩ :=
      visit_run hs hfaithful prefix_rfl hbound hvalid hpos hsmall hvisit
    refine ⟨⟨asked, hasked, hran⟩, by rintro r ⟨⟩, fun hhonest y hy => ?_⟩
    cases hy
    obtain ⟨hbounds, u, hu, hmany⟩ := hfails hhonest x rfl
    exact ⟨hbounds, .inr (hmany.trans_le (occurrences_le_join hu))⟩
  have hmid := ((e.grows_join C S _ _).bind fun _ =>
    (grows_lift _).bind fun _ => grows_pure _).of_run hrest
  obtain ⟨⟨asked, hasked, hran, -⟩, hmade, -⟩ :=
    visit_run hs hfaithful hmid hbound hvalid hpos hsmall hvisit
  have hlen : (e.rope.edit true 0 t).length ≤ catalogFanout :=
    (length_edit_le hvalid hfits).trans (by decide)
  have hjoins : ∀ {res log'}, e.join C S t.label.height roots mid = (res, log') → _ :=
    fun hjoin => join_run hs.covers hheight.2 hheight.1 (hmade roots rfl)
      (fits_edit hvalid hfits hpos) hlen hsmall hjoin
  rcases bind_cases hrest with ⟨x, hjoin, rfl⟩ | ⟨root, last, hjoin, hcheck⟩
  · obtain ⟨hran', -, hfails⟩ := hjoins hjoin
    have hboth := hran.trans hran'
    rw [append_nil] at hboth
    exact ⟨⟨asked, hasked, hboth⟩, by rintro r ⟨⟩, hfails⟩
  · obtain ⟨hran', hok, -⟩ := hjoins hjoin
    have hboth := hran.trans hran'
    rw [append_nil] at hboth
    obtain ⟨hlow, hroot⟩ := hok root rfl
    have hguard : ¬ (root.byteLen.val ≠
        t.size - (e.stop.val - e.start.val) + e.replacement.length) := by
      rw [not_not, ← size_result hs hadmissible]
      exact hroot.counts.byteLen
    rw [reject, if_neg hguard, lift_ok_bind] at hcheck
    cases hcheck
    refine ⟨⟨asked, hasked, hboth⟩, fun r hr => ?_, by rintro _ x ⟨⟩⟩
    cases hr
    exact ⟨hlow, hroot⟩

/-- Writing what is there gives a tree within the limits. -/
lemma result_within (hvalid : e.rope.Valid) (hsame : e.rope.Rewrites 0 t.pieces) :
    (e.rope.result t).1 ≤ catalogMaxHeight ∧
      (e.rope.result t).2.occurrences ≤ catalogMaxPageOccurrences := by
  by_cases hpos : 0 < t.size
  · rw [result_eq_self hvalid (fits_of_stored e hs) hpos hsame, occurrences_erase,
      ← hs.pageOccurrences]
    exact ⟨hs.height.1, hs.valid.occurrences_le⟩
  · -- Only a leaf can be empty.
    have hzero := Nat.eq_zero_of_not_pos hpos
    have hempty : (e.rope.edit true 0 t).flatMap content = [] := by
      rw [content_edit hvalid (fits_of_stored e hs) (fun _ => by
        obtain ⟨hlo, hhi⟩ := hsame.starts
        rw [flatten_pieces] at hhi
        exact ⟨hlo, hhi⟩), eq_nil_of_length_eq_zero hzero, RopeEdit.spliced]
      rw [if_pos rfl, hsame.replacement_eq_nil hzero, take_nil, drop_nil, append_nil, append_nil]
    have hnil : e.rope.edit true 0 t = [] := by
      by_contra hne
      obtain ⟨u, hu⟩ := exists_mem_of_ne_nil _ hne
      have hkept : true = false → 0 < t.size := fun h => Bool.noConfusion h
      have hsome := (fits_edit hvalid (fits_of_stored e hs) hkept u hu).1
      have hle := size_le_of_mem hu
      rw [hempty, length_nil] at hle
      omega
    rw [RopeEdit.result, hnil]
    exact ⟨Nat.zero_le _, show 1 ≤ catalogMaxPageOccurrences by decide⟩

omit hs in
/-- An edit that does nothing writes what is there. -/
lemma Admissible.rewrites (hadmissible : e.Admissible t.size)
    (hnoop : e.start = e.stop ∧ e.replacement = []) : e.rope.Rewrites 0 t.pieces := by
  obtain ⟨hsingle, hnone⟩ := hnoop
  refine ⟨⟨Nat.zero_le _, ?_⟩, .inl (congrArg Fin.val hsingle), ?_⟩
  · rw [flatten_pieces, Nat.zero_add]
    exact hadmissible.le.trans hadmissible.stop_le
  · have hstop : e.rope.stop = e.rope.start := congrArg Fin.val hsingle.symm
    rw [hstop, clip, drop_of_length_le]
    · exact hnone
    · rw [length_take]
      exact Nat.min_le_left _ _

/-- Writing what is there, within one leaf, is an admissible edit of this kind. -/
lemma rewrites_of_same (haz : e.start ≤ e.stop) (hz : e.stop ≤ t.label.byteLen)
    (hsame : e.replacement = (t.content.take e.stop.val).drop e.start.val)
    (hlocal : e.start = e.stop ∨ ∃ p ∈ placed List.length 0 t.pieces,
      p.1 ≤ e.start.val ∧ e.stop.val ≤ p.1 + p.2.length) :
    e.Admissible t.size ∧ e.rope.Rewrites 0 t.pieces := by
  rw [Fin.le_def] at haz hz
  rw [hs.byteLen] at hz
  have hlength : e.replacement.length = e.stop.val - e.start.val := by
    rw [hsame, length_drop, length_take, ← size, Nat.min_eq_left hz]
  have hbound := hs.size_le
  have hleaf : e.replacement.length ≤ catalogLeafBytes := by
    rcases hlocal with hsingle | ⟨p, hp, hlo, hhi⟩
    · rw [hsingle] at hlength
      omega
    · have hpiece := hs.piece_le p.2 (mem_of_mem_placed hp)
      omega
  refine ⟨⟨haz, hz, hleaf, ?_⟩, ⟨Nat.zero_le _, ?_⟩, hlocal.imp_left (congrArg Fin.val), ?_⟩
  · omega
  · rw [flatten_pieces, Nat.zero_add]
    exact haz.trans hz
  · rw [flatten_pieces, clip, Nat.sub_zero, Nat.sub_zero]
    exact hsame

lemma not_admissible_iff :
    ¬ e.Admissible t.size ↔ e.stop < e.start ∨ t.label.byteLen < e.stop ∨
      catalogLeafBytes < e.replacement.length ∨ catalogMaxStreamBytes <
        t.label.byteLen.val - (e.stop.val - e.start.val) + e.replacement.length := by
  rw [Fin.lt_def, Fin.lt_def, hs.byteLen]
  constructor
  · intro hnot
    by_contra hin
    push Not at hin
    exact hnot ⟨hin.1, hin.2.1, hin.2.2.1, hin.2.2.2⟩
  · rintro hout ⟨hle, hstop, hlen, hall⟩
    omega

variable {res : StreamOutcome ε CatalogPageRef}
  (hrun : t.label.splice C S e.scope e.sec e.start e.stop e.replacement [] = (res, log))

include hrun

/-- Every run of a splice: what it asks for, in which order it hands over, and what it returns. -/
lemma splice_sound (hfaithful : S.Faithful C pages log) :
    (fetchedPages log).length ≤ 2 * t.label.height.val + 1 ∧
      ChildrenEarlier C e.scope e.sec pages (storedPages log) ∧
      ∀ root, res = .ok root → CollisionFree C pages (keptPages log) →
        ∃ (h' : ℕ) (t' : PageTree h'), t'.label = root ∧
        Stored C e.scope e.sec (pages ++ storedPages log) t' ∧
        t'.content = t.content.take e.start.val ++ e.replacement ++ t.content.drop e.stop.val := by
  by_cases hadmissible : e.Admissible t.size
  swap
  · rw [(splice_eq hs).1 hadmissible] at hrun
    cases hrun
    exact ⟨Nat.zero_le _, .nil, by rintro root ⟨⟩⟩
  by_cases hnoop : e.start = e.stop ∧ e.replacement = []
  · rw [(splice_eq hs).2 hadmissible, if_pos hnoop] at hrun
    cases hrun
    refine ⟨Nat.zero_le _, .nil, fun root hroot _ => ?_⟩
    cases hroot
    refine ⟨h, t, rfl, hs.mono (subset_append_left _ _), ?_⟩
    rw [hnoop.1, hnoop.2, append_nil, take_append_drop]
  · obtain ⟨⟨asked, hasked, hran⟩, hok, -⟩ :=
      splice_run hs hadmissible hnoop hfaithful hrun
    refine ⟨?_, hran.ordered .nil, fun root hroot hfree => ?_⟩
    · have hasks := congrArg List.length hran.asks
      rw [length_map, length_append, length_map] at hasks
      have hopened : (e.rope.opened true 0 t).length ≤ 2 * h + 1 := (length_opened.2 rfl).1
      have hempty : (fetchedPages []).length = 0 := rfl
      have hle := hasked.length_le
      rw [hs.height.2]
      omega
    · obtain ⟨t', hlabel, hstored, herase⟩ := (hok root hroot).2.tree hfree
      refine ⟨_, t', hlabel, hstored, ?_⟩
      rw [← content_erase, herase, content_result hadmissible.valid
        (fits_of_stored e hs) (hadmissible.le.trans hadmissible.stop_le)]
      rfl

/-- With honest callbacks a splice fails only with `Bounds`, when its input or its result is beyond
a limit. -/
lemma splice_complete (hhonest : S.Honest pages) :
    (Succeeds res ∨ res = fail (.catalog .bounds)) ∧ (res = fail (.catalog .bounds) ↔
        ¬ e.Admissible t.size ∨ catalogMaxHeight < (e.rope.result t).1 ∨
        catalogMaxPageOccurrences < (e.rope.result t).2.occurrences) := by
  by_cases hadmissible : e.Admissible t.size
  swap
  · rw [(splice_eq hs).1 hadmissible] at hrun
    cases hrun
    exact ⟨.inr rfl, fun _ => .inl hadmissible, fun _ => rfl⟩
  have hwithin : (e.rope.result t).1 ≤ catalogMaxHeight ∧
      (e.rope.result t).2.occurrences ≤ catalogMaxPageOccurrences →
      ¬ (¬ e.Admissible t.size ∨ catalogMaxHeight < (e.rope.result t).1 ∨
        catalogMaxPageOccurrences < (e.rope.result t).2.occurrences) := by
    rintro ⟨hlow, hfew⟩ (hnot | hhigh | hmany)
    · exact hnot hadmissible
    · omega
    · omega
  by_cases hnoop : e.start = e.stop ∧ e.replacement = []
  · rw [(splice_eq hs).2 hadmissible, if_pos hnoop] at hrun
    cases hrun
    have hout := hwithin (result_within hs hadmissible.valid (hadmissible.rewrites hnoop))
    exact ⟨.inl ⟨_, rfl⟩, (by rintro ⟨⟩), fun h => absurd h hout⟩
  obtain ⟨-, hok, hfails⟩ := splice_run hs hadmissible hnoop hhonest.faithful hrun
  cases res with
  | ok root =>
    obtain ⟨hlow, hmade⟩ := hok root rfl
    have hfew := hmade.counts.valid.occurrences_le
    rw [hmade.counts.occurrences] at hfew
    exact ⟨.inl ⟨root, rfl⟩, (by rintro ⟨⟩), fun h => absurd h (hwithin ⟨hlow, hfew⟩)⟩
  | error x =>
    obtain ⟨rfl, hbeyond⟩ := hfails hhonest x rfl
    exact ⟨.inr rfl, fun _ => .inr hbeyond, fun _ => rfl⟩

/-- Writing what is there within one leaf returns the root and hands nothing over. -/
lemma splice_same (hfaithful : S.Faithful C pages log)
    (hadmissible : e.Admissible t.size) (hrewrites : e.rope.Rewrites 0 t.pieces) :
    storedPages log = [] ∧ (∀ root, res = .ok root → root = t.label) ∧
      (S.Honest pages → Succeeds res) := by
  have hsucceeds : S.Honest pages → Succeeds res := by
    intro hhonest
    obtain ⟨hends, hbounds⟩ := splice_complete hs hrun hhonest
    refine hends.resolve_right fun hfail => ?_
    obtain ⟨hlow, hfew⟩ := result_within hs hadmissible.valid hrewrites
    rcases hbounds.mp hfail with hnot | hhigh | hmany
    · exact hnot hadmissible
    · exact absurd hhigh (Nat.not_lt.mpr hlow)
    · exact absurd hmany (Nat.not_lt.mpr hfew)
  rw [(splice_eq hs).2 hadmissible] at hrun
  by_cases hnoop : e.start = e.stop ∧ e.replacement = []
  · rw [if_pos hnoop] at hrun
    cases hrun
    refine ⟨rfl, fun root hroot => ?_, hsucceeds⟩
    cases hroot
    rfl
  have hpos : 0 < t.size := by
    by_contra hzero
    have hle : e.start.val ≤ e.stop.val := hadmissible.le
    have hstop : e.stop.val ≤ t.size := hadmissible.stop_le
    exact hnoop ⟨Fin.ext (by omega), hrewrites.replacement_eq_nil (Nat.eq_zero_of_not_pos hzero)⟩
  have hbound : (0 : U64).val + t.size ≤ catalogMaxStreamBytes :=
    (Nat.zero_add _).trans_le hs.size_le
  have hspares : e.rope.Spares (0 : U64).val t true := hrewrites
  rw [if_neg hnoop] at hrun
  have hvisits : ∀ {res mid}, mid <+: log → e.visit C S h t.label 0 true [] = (res, mid) → _ :=
    fun hmid hvisit =>
      visit_same hs hfaithful hmid hbound hadmissible.valid hpos hspares hvisit
  rcases bind_cases hrun with ⟨x, hvisit, rfl⟩ | ⟨roots, mid, hvisit, hrest⟩
  · exact ⟨(hvisits prefix_rfl hvisit).1, (by rintro root ⟨⟩), hsucceeds⟩
  · have hmid := ((e.grows_join C S _ _).bind fun _ =>
      (grows_lift _).bind fun _ => grows_pure _).of_run hrest
    obtain ⟨hstored, hroots⟩ := hvisits hmid hvisit
    obtain rfl := hroots roots rfl
    rw [join, pure_bind] at hrest
    rcases bind_cases hrest with ⟨x, hcheck, rfl⟩ | ⟨_, last, hcheck, hpure⟩
    · obtain rfl : mid = log := congrArg Prod.snd hcheck
      exact ⟨hstored, (by rintro root ⟨⟩), hsucceeds⟩
    · obtain rfl : mid = last := congrArg Prod.snd hcheck
      cases hpure
      refine ⟨hstored, fun root hroot => ?_, hsucceeds⟩
      cases hroot
      rfl

end

end Edit

/-- The tree that a splice of a tree gives, without the references of its pages. -/
def splicedTree {h : ℕ} (a z : U64) (replacement : List UInt8) (t : PageTree h) :
    Σ h, Rope Unit UInt8 h :=
  (RopeEdit.mk a.val z.val replacement catalogLeafBytes catalogFanout).result t

/-- **Splices are exact.**  For a tree of pages that verifies, of any shape, whatever the callbacks
answer, and a run in which no page that was fetched or came out as it was collides with one of the
pages: at most two pages a level are fetched; every page is handed over after the new pages it
refers to; the old root still reads its old content; and if the splice succeeds, its root verifies
and reads back as the content with the range replaced.  With callbacks of a storage that has the
pages it succeeds or fails with `Bounds`, and it fails exactly when the range or a size is out of
bounds, or the resulting tree is too high or stands for too many pages (no page of a tree stands for
more than its root).  A splice that writes the bytes already there, within one leaf, returns the old
root and hands nothing over. -/
theorem splice_exact (C : Crypto) {scope : CatalogScope} {sec : CatalogSection}
    {pages : List Emitted} {h : ℕ} {t : PageTree h} (hstored : Stored C scope sec pages t)
    (a z : U64) (replacement : List UInt8) :
    (∀ {ε : Type} (S : PageStorage ε) res log,
      t.label.splice C S scope sec a z replacement [] = (res, log) →
      CollisionFree C pages (fetchedPages log ++ keptPages log) →
      (fetchedPages log).length ≤ 2 * t.label.height.val + 1 ∧
      ChildrenEarlier C scope sec pages (storedPages log) ∧
      ReadsBack C scope sec (pages ++ storedPages log) t.label t.content ∧
      ∀ root, res = .ok root → (∃ (h' : ℕ) (t' : PageTree h'), t'.label = root ∧
          Stored C scope sec (pages ++ storedPages log) t') ∧
        ReadsBack C scope sec (pages ++ storedPages log) root
          (t.content.take a.val ++ replacement ++ t.content.drop z.val)) ∧
    (∀ {ε : Type} (S : PageStorage ε) res log, S.Honest pages →
      t.label.splice C S scope sec a z replacement [] = (res, log) →
      (fetchedPages log).length ≤ 2 * t.label.height.val + 1 ∧
      (Succeeds res ∨ res = fail (.catalog .bounds)) ∧ (res = fail (.catalog .bounds) ↔
        (z < a ∨ t.label.byteLen < z ∨ catalogLeafBytes < replacement.length ∨
          catalogMaxStreamBytes < t.label.byteLen.val - (z.val - a.val) + replacement.length) ∨
        catalogMaxHeight < (splicedTree a z replacement t).1 ∨
        catalogMaxPageOccurrences < (splicedTree a z replacement t).2.occurrences)) ∧
    (a ≤ z → z ≤ t.label.byteLen → replacement = (t.content.take z.val).drop a.val →
      (a = z ∨ ∃ p ∈ placed List.length 0 t.pieces, p.1 ≤ a.val ∧ z.val ≤ p.1 + p.2.length) →
      ∀ {ε : Type} (S : PageStorage ε) res log,
        t.label.splice C S scope sec a z replacement [] = (res, log) →
        S.Honest pages ∨ CollisionFree C pages (fetchedPages log) →
        storedPages log = [] ∧ (∀ root, res = .ok root → root = t.label) ∧
          (S.Honest pages → res = .ok t.label)) := by
  let e : Edit := ⟨scope, sec, a, z, replacement⟩
  have hs : Stored C e.scope e.sec pages t := hstored
  refine ⟨fun S res log hrun hfree => ?_, fun S res log hhonest hrun => ?_,
    fun haz hz hsame hlocal ε S res log hrun hfree => ?_⟩
  · have hfetches := hfree.mono (subset_append_left _ _)
    obtain ⟨hfetched, hordered, hresult⟩ := Edit.splice_sound hs hrun hfetches.faithful
    refine ⟨hfetched, hordered, (hstored.mono (subset_append_left _ _)).readsBack,
      fun root hroot => ?_⟩
    obtain ⟨h', t', rfl, hstored', hcontent⟩ :=
      hresult root hroot (hfree.mono (subset_append_right _ _))
    refine ⟨⟨h', t', rfl, hstored'⟩, ?_⟩
    rw [← hcontent]
    exact hstored'.readsBack
  · obtain ⟨hfetched, -, -⟩ := Edit.splice_sound hs hrun hhonest.faithful
    obtain ⟨hends, hbounds⟩ := Edit.splice_complete hs hrun hhonest
    rw [Edit.not_admissible_iff hs] at hbounds
    exact ⟨hfetched, hends, hbounds⟩
  · have hfaithful : S.Faithful C pages log :=
      hfree.elim PageStorage.Honest.faithful CollisionFree.faithful
    obtain ⟨hadmissible, hrewrites⟩ := Edit.rewrites_of_same hs haz hz hsame hlocal
    obtain ⟨hnone, hroot, hsucceeds⟩ := Edit.splice_same hs hrun hfaithful hadmissible hrewrites
    refine ⟨hnone, hroot, fun hhonest => ?_⟩
    obtain ⟨root, rfl⟩ := hsucceeds hhonest
    rw [hroot root rfl]

/-! ### Small splices -/

/-- Storage that holds some pages and takes every page. -/
def holding (pages : List Emitted) : PageStorage Unit :=
  ⟨fun _ => lookupPage pages, fun _ _ => .ok ()⟩

/-- A splice over both leaves of the small tree that writes the bytes already there puts them into
one leaf: the root is another one, and pages are handed over. -/
theorem splice_same_bytes_over_two_leaves :
    ∃ root log, smallTree.content = [7, 8] ∧
      smallRoot.splice .transparent (holding smallPages) (.guild 1) .packing 0 2 [7, 8] [] =
        (.ok root, log) ∧ root ≠ smallRoot ∧ storedPages log ≠ [] := by
  rcases hrun : smallRoot.splice .transparent (holding smallPages) (.guild 1) .packing 0 2
    [7, 8] [] with ⟨res, log⟩
  have hout : ∃ root ∈ (smallRoot.splice .transparent (holding smallPages) (.guild 1) .packing
      0 2 [7, 8] []).1.toOption, root ≠ smallRoot ∧
      storedPages (smallRoot.splice .transparent (holding smallPages) (.guild 1) .packing 0 2
        [7, 8] []).2 ≠ [] := by decide +kernel
  rw [hrun] at hout
  obtain ⟨root, hroot, hne, hstored⟩ := hout
  cases res with
  | ok r =>
    cases hroot
    exact ⟨root, log, rfl, rfl, hne, hstored⟩
  | error x => cases hroot

/-- A splice that replaces both leaves of the small tree by the bytes of the first: the first leaf
comes out as it was, a root over it is handed over, and that root reads back as these bytes. -/
theorem splice_exact_first_leaf_kept :
    ∃ root log, smallRoot.splice .transparent (holding smallPages) (.guild 1) .packing 0 2 [7]
        [] = (.ok root, log) ∧
      CollisionFree .transparent smallPages (fetchedPages log ++ keptPages log) ∧
      (fetchedPages log).length = 2 ∧ (keptPages log).length = 1 ∧ (storedPages log).length = 1 ∧
      ReadsBack .transparent (.guild 1) .packing (smallPages ++ storedPages log) root [7] := by
  rcases hrun : smallRoot.splice .transparent (holding smallPages) (.guild 1) .packing 0 2 [7]
    [] with ⟨res, log⟩
  have hout : (smallRoot.splice .transparent (holding smallPages) (.guild 1) .packing 0 2 [7]
        []).1.toOption.isSome = true ∧
      (fun log => CollisionFree .transparent smallPages (fetchedPages log ++ keptPages log) ∧
        (fetchedPages log).length = 2 ∧ (keptPages log).length = 1 ∧ (storedPages log).length = 1)
        (smallRoot.splice .transparent (holding smallPages) (.guild 1) .packing 0 2 [7] []).2 := by
    decide +kernel
  rw [hrun] at hout
  obtain ⟨hsome, hfree, hfetched, hkept, hstored⟩ := hout
  cases res with
  | ok root =>
    obtain ⟨-, -, -, hresult⟩ :=
      (splice_exact .transparent stored_smallTree 0 2 [7]).1 _ _ log hrun hfree
    exact ⟨root, log, rfl, hfree, hfetched, hkept, hstored, (hresult root rfl).2⟩
  | error x => cases hsome

end MutualBackup

import MutualBackup.Catalog.Builder
import MutualBackup.Framework.Rope

/-!
# Trees of pages

A tree of pages as a rope: the label of a node is the reference of its page, and the leaves hold the
stream.  `Stored` says that the page of every node encodes to the node's label and is among given
pages, so that the whole tree verifies from its root.  Nothing else is asked of a tree: leaves and
index pages may be of any size the format allows, and the same page may occur many times.

What a reference says of a tree (`byteLen`, `pageOccurrences`, `height`) is what the tree is, and a
page that verifies against the label of a node is the page of the node, unless two pages collide.
-/

namespace MutualBackup

open Framework List Rope

/-- A tree of pages of a height, over the stream its leaves hold. -/
abbrev PageTree := Rope CatalogPageRef UInt8

/-- What the page of a node holds. -/
def bodyOf : {h : ℕ} → PageTree h → PageBody
  | 0, ⟨_, piece⟩ => .leaf piece
  | _ + 1, ⟨_, children⟩ => .index (children.map Rope.label)

/-- The page of a node. -/
def pageOf (scope : CatalogScope) (sec : CatalogSection) {h : ℕ} (t : PageTree h) : Page :=
  ⟨1, scope, sec, Fin.ofNat _ h, bodyOf t⟩

section Tree

variable (C : Crypto) (scope : CatalogScope) (sec : CatalogSection) (pages : List Emitted)

/-- The page of a node encodes to its label and is among the pages. -/
def PageStored {h : ℕ} (t : PageTree h) : Prop :=
  ∃ bytes, (pageOf scope sec t).encode C = .ok (t.label, bytes) ∧ (t.label, bytes) ∈ pages

/-- The pages of all nodes encode to their labels and are among the pages. -/
def Stored : {h : ℕ} → PageTree h → Prop
  | 0, t => PageStored C scope sec pages t
  | _ + 1, t => PageStored C scope sec pages t ∧ ∀ c ∈ Labelled.body t, Stored c

end Tree

@[simp] lemma bodyOf_leaf (l : CatalogPageRef) (piece : List UInt8) :
    bodyOf (leaf l piece) = .leaf piece := rfl

@[simp] lemma bodyOf_node {h : ℕ} (l : CatalogPageRef) (children : List (PageTree h)) :
    bodyOf (node l children) = .index (children.map label) := rfl

section Stored

variable {C : Crypto} {scope : CatalogScope} {sec : CatalogSection}
  {pages pages' : List Emitted} {h : ℕ} {t : PageTree h}

variable {l : CatalogPageRef} {children : List (PageTree h)}

lemma stored_node :
    Stored C scope sec pages (node l children) ↔ PageStored C scope sec pages (node l children) ∧
      ∀ c ∈ children, Stored C scope sec pages c := Iff.rfl

lemma PageStored.mono (hsub : pages ⊆ pages') (hs : PageStored C scope sec pages t) :
    PageStored C scope sec pages' t := by
  obtain ⟨bytes, hencode, hmem⟩ := hs
  exact ⟨bytes, hencode, hsub hmem⟩

section

variable (hs : Stored C scope sec pages t)

include hs

lemma Stored.page : PageStored C scope sec pages t := by
  cases h with
  | zero => exact hs
  | succ h => exact hs.1

lemma Stored.mono (hsub : pages ⊆ pages') : Stored C scope sec pages' t := by
  induction t using inductionOn with
  | leaf l piece => exact PageStored.mono hsub hs
  | node l children ih =>
    obtain ⟨hpage, hchildren⟩ := stored_node.mp hs
    exact stored_node.mpr ⟨hpage.mono hsub, fun c hc => ih c hc (hchildren c hc)⟩

lemma Stored.valid : t.label.Valid := by
  obtain ⟨bytes, hencode, -⟩ := hs.page
  exact Page.valid_of_encode hencode

lemma Stored.covers : scope.validate sec = .ok () := by
  obtain ⟨bytes, hencode, -⟩ := hs.page
  exact (Page.counts_bounds (Page.encode_eq_ok.mp hencode).1).1.covers

end

/-- The counts of the page of an index node. -/
lemma Stored.counts_node (hs : Stored C scope sec pages (node l children)) :
    children ≠ [] ∧ children.length ≤ catalogFanout ∧
      (∀ c ∈ children, Page.IsChild (Fin.ofNat (2 ^ 8) (h + 1)).val c.label) ∧
      l.byteLen.val = (children.map fun c => c.label.byteLen.val).sum ∧
      l.pageOccurrences.val = 1 + (children.map fun c => c.label.pageOccurrences.val).sum ∧
      l.height.val = (Fin.ofNat (2 ^ 8) (h + 1)).val := by
  obtain ⟨bytes, hencode, -⟩ := hs.page
  obtain ⟨hcounts, -, -, -, -, hheight⟩ := Page.encode_eq_ok.mp hencode
  obtain ⟨-, -, hne, hlen, hchild, hbytes, hpages, -, -⟩ :=
    (Page.counts_index_eq_ok (bodyOf_node l children)).mp hcounts
  rw [map_map] at hbytes hpages
  rw [label_node] at hheight hbytes hpages
  refine ⟨by simpa using hne, by simpa using hlen, fun c hc => ?_, hbytes, hpages, ?_⟩
  · exact hchild c.label (mem_map_of_mem hc)
  · rw [hheight]
    rfl

lemma Stored.counts_leaf {piece : List UInt8} (hs : Stored C scope sec pages (leaf l piece)) :
    piece.length ≤ catalogLeafBytes ∧ l.byteLen.val = piece.length ∧ l.pageOccurrences.val = 1 ∧
      l.height.val = 0 := by
  obtain ⟨bytes, hencode, -⟩ := hs.page
  obtain ⟨hcounts, -, -, -, -, hheight⟩ := Page.encode_eq_ok.mp hencode
  obtain ⟨-, hzero, hle, hbytes, hone⟩ := (Page.counts_leaf_eq_ok (bodyOf_leaf l piece)).mp hcounts
  rw [label_leaf] at hheight hbytes hone
  rw [hheight]
  exact ⟨hle, hbytes, hone, hzero⟩

section

variable (hs : Stored C scope sec pages t)

include hs

/-- A tree that verifies is not too high, and its root says how high it is. -/
lemma Stored.height : h ≤ catalogMaxHeight ∧ t.label.height.val = h := by
  induction t using inductionOn with
  | leaf l piece => exact ⟨Nat.zero_le _, hs.counts_leaf.2.2.2⟩
  | @node h l children ih =>
    have hmax : catalogMaxHeight = 3 := rfl
    obtain ⟨hne, -, -, -, -, hheight⟩ := hs.counts_node
    obtain ⟨c, hc⟩ := exists_mem_of_ne_nil children hne
    have hle := (ih c hc ((stored_node.mp hs).2 c hc)).1
    rw [Fin.val_ofNat, Nat.mod_eq_of_lt (by omega)] at hheight
    have hvalid := hs.valid.height_le
    rw [label_node] at hvalid ⊢
    exact ⟨by omega, hheight⟩

lemma Stored.byteLen : t.label.byteLen.val = t.size := by
  induction t using inductionOn with
  | leaf l piece => exact hs.counts_leaf.2.1
  | node l children ih =>
    rw [label_node, hs.counts_node.2.2.2.1, size_node]
    exact congrArg _ (map_congr_left fun c hc => ih c hc ((stored_node.mp hs).2 c hc))

lemma Stored.size_le : t.size ≤ catalogMaxStreamBytes := by
  rw [← hs.byteLen]
  exact hs.valid.byteLen_le

lemma Stored.pageOccurrences : t.label.pageOccurrences.val = t.occurrences := by
  induction t using inductionOn with
  | leaf l piece => exact hs.counts_leaf.2.2.1
  | node l children ih =>
    rw [label_node, hs.counts_node.2.2.2.2.1, occurrences_node]
    exact congrArg _ (congrArg _
      (map_congr_left fun c hc => ih c hc ((stored_node.mp hs).2 c hc)))

lemma Stored.piece_le : ∀ piece ∈ t.pieces, piece.length ≤ catalogLeafBytes := by
  induction t using inductionOn with
  | leaf l piece =>
    rw [pieces_leaf, forall_mem_singleton]
    exact hs.counts_leaf.1
  | node l children ih =>
    rw [pieces_node, forall_mem_flatMap]
    exact fun c hc => ih c hc ((stored_node.mp hs).2 c hc)

/-- What the readers see below the root. -/
lemma Stored.reads : Reads C scope sec pages h t.label t.pieces := by
  induction t using inductionOn with
  | leaf l piece =>
    obtain ⟨bytes, hencode, hmem⟩ := hs.page
    exact ⟨piece, bytes, rfl, hencode, hmem⟩
  | node l children ih =>
    obtain ⟨⟨bytes, hencode, hmem⟩, hchildren⟩ := stored_node.mp hs
    refine ⟨children.map label, children.map pieces, bytes, ?_, ?_, hencode, hmem⟩
    · rw [forall₂_map_left_iff, forall₂_map_right_iff, forall₂_same]
      exact fun c hc => ih c hc (hchildren c hc)
    · rw [pieces_node, flatMap_def]

/-- A page that verifies against the label of a node is the page of the node, unless it collides
with one of the stored pages. -/
lemma Stored.eq_of_encode {p : Page} {bytes : List UInt8}
    (hencode : p.encode C = .ok (t.label, bytes))
    (hfree : ∀ page ∈ pages, page.1 = t.label → pageHash C page.2 = pageHash C bytes →
      page.2 = bytes) : p = pageOf scope sec t := by
  obtain ⟨bytes', hencode', hmem⟩ := hs.page
  exact ((page_eq_of_reference hencode' hencode (hfree _ hmem rfl)).1).symm

/-- Over storage that returns these pages, the root reads back as these bytes. -/
def ReadsBack (C : Crypto) (scope : CatalogScope) (sec : CatalogSection)
    (pages : List Emitted) (root : CatalogPageRef) (bytes : List UInt8) : Prop :=
  ∀ {ε : Type} (fetch : PageLog → CatalogPageRef → Except ε (List UInt8)),
    (∀ log, ∀ page ∈ pages, fetch log page.1 = .ok page.2) →
    ∃ reader leaves s, CatalogReader.new scope sec root = .ok reader ∧
      ReadToEnd C (CatalogReader.byReference root fetch) (.start reader) leaves s ∧
      leaves.flatten = bytes

lemma Stored.readsBack : ReadsBack C scope sec pages t.label t.content := by
  intro ε fetch hfetch
  obtain ⟨full, hfull, -, hreading⟩ := reading_new hs.covers hs.height.1 hs.reads
  obtain ⟨s, hread⟩ :=
    Reading.readToEnd (s := .start full) (serves_byReference hfetch t.label) hreading
  exact ⟨full, t.pieces, s, hfull, hread, t.flatten_pieces⟩

end

/-- No child of an index page is empty. -/
lemma Stored.size_pos (hs : Stored C scope sec pages (node l children))
    {c : PageTree h} (hc : c ∈ children) : 0 < c.size := by
  rw [← ((stored_node.mp hs).2 c hc).byteLen]
  exact (hs.counts_node.2.2.1 c hc).byteLen_pos

/-- Every tree the readers can read is such a tree. -/
lemma exists_stored {r : CatalogPageRef} {chunks : List (List UInt8)}
    (hreads : Reads C scope sec pages h r chunks) :
    ∃ t : PageTree h, Stored C scope sec pages t ∧ t.label = r ∧ t.pieces = chunks := by
  induction h generalizing r chunks with
  | zero =>
    obtain ⟨data, bytes, rfl, hencode, hmem⟩ := hreads
    exact ⟨leaf r data, ⟨bytes, hencode, hmem⟩, rfl, rfl⟩
  | succ h ih =>
    obtain ⟨children, parts, bytes, hall, rfl, hencode, hmem⟩ := hreads
    obtain ⟨ts, hts, hlabels, hparts⟩ : ∃ ts : List (PageTree h),
        (∀ t ∈ ts, Stored C scope sec pages t) ∧ ts.map label = children ∧
          ts.map pieces = parts := by
      clear hencode
      induction hall with
      | nil => exact ⟨[], by simp, rfl, rfl⟩
      | cons hfirst _ ihall =>
        obtain ⟨t, ht, hlabel, hpieces⟩ := ih hfirst
        obtain ⟨ts, hts, hlabels, hparts⟩ := ihall
        refine ⟨t :: ts, forall_mem_cons.mpr ⟨ht, hts⟩, ?_, ?_⟩
        · rw [map_cons, hlabel, hlabels]
        · rw [map_cons, hpieces, hparts]
    refine ⟨node r ts, stored_node.mpr ⟨⟨bytes, ?_, hmem⟩, hts⟩, rfl, ?_⟩
    · rw [pageOf, bodyOf_node, hlabels]
      exact hencode
    · rw [pieces_node, flatMap_def, hparts]

end Stored

/-! ## Fetching -/

section Fetching

variable {ε τ : Type}

/-- A page for a reference, from a callback that is not trusted. -/
def fetchPage (C : Crypto) (scope : CatalogScope) (sec : CatalogSection)
    (fetch : List τ → CatalogPageRef → Except ε (List UInt8)) (entry : Emitted → τ)
    (reference : CatalogPageRef) : Traced τ (CatalogStreamError ε) Page := do
  let encoded ← Traced.call (fun log => fetch log reference) CatalogStreamError.storage
    fun bytes => entry (reference, bytes)
  Traced.lift (mapErr .catalog (verifyPage C reference scope sec encoded))

variable {C : Crypto} {scope : CatalogScope} {sec : CatalogSection}
  {fetch : List τ → CatalogPageRef → Except ε (List UInt8)} {entry : Emitted → τ}
  {reference : CatalogPageRef} {log log' : List τ}

/-- The runs of a fetch: the callback failed, or its answer was recorded and then verified. -/
lemma fetchPage_cases {r : StreamOutcome ε Page}
    (h : fetchPage C scope sec fetch entry reference log = (r, log')) :
    (∃ e, r = fail (.storage e) ∧ log' = log) ∨
      ∃ bytes, fetch log reference = .ok bytes ∧ log' = log ++ [entry (reference, bytes)] ∧
        r = mapErr .catalog (verifyPage C reference scope sec bytes) := by
  rcases Traced.bind_cases h with ⟨e, hcall, rfl⟩ | ⟨bytes, mid, hcall, hverify⟩
  · rcases Traced.call_cases hcall with ⟨_, _, herr, _⟩ | ⟨e', herr, hlog⟩
    · cases herr
    · cases herr
      exact .inl ⟨e', rfl, hlog⟩
  · rcases Traced.call_cases hcall with ⟨got, hfetch, hgot, hlog⟩ | ⟨e', herr, _⟩
    · cases hgot
      rw [Traced.lift_run] at hverify
      cases hverify
      exact .inr ⟨bytes, hfetch, hlog, rfl⟩
    · cases herr

lemma fetchPage_eq_ok {p : Page} :
    fetchPage C scope sec fetch entry reference log = (.ok p, log') ↔
      ∃ bytes, fetch log reference = .ok bytes ∧ log' = log ++ [entry (reference, bytes)] ∧
        p.encode C = .ok (reference, bytes) ∧ p.scope = scope ∧ p.sec = sec := by
  constructor
  · intro h
    rcases fetchPage_cases h with ⟨e, herr, -⟩ | ⟨bytes, hfetch, hlog, hverify⟩
    · cases herr
    · exact ⟨bytes, hfetch, hlog, verifyPage_eq_ok.mp (mapErr_eq_ok.mp hverify.symm)⟩
  · rintro ⟨bytes, hfetch, rfl, hpage⟩
    rw [fetchPage, Traced.bind_of_ok (Traced.call_of_ok hfetch), Traced.lift_run,
      verifyPage_eq_ok.mpr hpage, mapErr_ok]

lemma grows_fetchPage : (fetchPage C scope sec fetch entry reference).Grows :=
  (Traced.grows_call _ _ _).bind fun _ => Traced.grows_lift _

end Fetching

/-! ### A small tree -/

def smallTree : PageTree 1 :=
  Rope.node smallRoot [Rope.leaf firstLeaf [7], Rope.leaf secondLeaf [8]]

/-- The page of a node as it is stored. -/
def storedPage {h : ℕ} (t : PageTree h) : Emitted :=
  (t.label, (Page.codec.encode (pageOf (.guild 1) .packing t)).getD [])

def smallPages : List Emitted :=
  [storedPage (Rope.leaf firstLeaf [7]), storedPage (Rope.leaf secondLeaf [8]),
    storedPage smallTree]

/-- Storage that holds some pages. -/
def lookupPage (pages : List Emitted) (r : CatalogPageRef) : Except Unit (List UInt8) :=
  match pages.find? fun page => page.1 = r with
  | some page => .ok page.2
  | none => .error ()

lemma lookupPage_of_mem {pages : List Emitted} (hnodup : (pages.map Prod.fst).Nodup)
    {page : Emitted} (hmem : page ∈ pages) : lookupPage pages page.1 = .ok page.2 := by
  have hfind : (pages.find? fun p => p.1 = page.1) = some page :=
    (find?_eq_some_of_unique fun x hx y hy hpx hpy =>
      inj_on_of_nodup_map hnodup hx hy ((of_decide_eq_true hpx).trans
        (of_decide_eq_true hpy).symm)).mpr ⟨hmem, decide_eq_true rfl⟩
  rw [lookupPage, hfind]

lemma stored_smallTree : Stored .transparent (.guild 1) .packing smallPages smallTree := by
  have hfirst : (pageOf (.guild 1) .packing (leaf firstLeaf [7])).encode .transparent =
      .ok (storedPage (leaf firstLeaf [7])) := by decide +kernel
  have hsecond : (pageOf (.guild 1) .packing (leaf secondLeaf [8])).encode
      Crypto.transparent = .ok (storedPage (leaf secondLeaf [8])) := by decide +kernel
  have hroot : (pageOf (.guild 1) .packing smallTree).encode .transparent =
      .ok (storedPage smallTree) := by decide +kernel
  refine stored_node.mpr ⟨⟨_, hroot, by simp [smallPages, storedPage, smallTree]⟩, ?_⟩
  intro c hc
  rcases mem_pair.mp hc with rfl | rfl
  · exact ⟨_, hfirst, by simp [smallPages, storedPage]⟩
  · exact ⟨_, hsecond, by simp [smallPages, storedPage]⟩

end MutualBackup

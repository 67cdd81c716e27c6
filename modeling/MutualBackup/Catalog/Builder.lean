import Mathlib.Algebra.Order.BigOperators.Group.List
import MutualBackup.Catalog.Reader
import MutualBackup.Framework.Levels

/-!
# Building a catalog stream

`CatalogBuilder` cuts a byte stream into leaves of `catalogLeafBytes` as it arrives and builds the
page tree over them level by level, handing every page to a sink once it is complete.  `finish`
closes the tree into its root.

The lists of references are those of `Framework.carry` and `Framework.close`, with `store` as the
node constructor.  What a reference stands for is `Reads`: the pages below it are among those the
sink has received, and their leaves in order are these chunks of the stream.

The sink is a callback that sees what it was given before, and the pages it accepted are the state
of the builder's operations.  A push that fails returns before it hands out a page unless a page
exceeds a bound or the sink fails.
-/

namespace MutualBackup

open Framework List

/-! ## The builder -/

/-- A page as a sink receives it. -/
abbrev Emitted := CatalogPageRef × List UInt8

/-- A sink callback: it may refuse a page after what it has accepted. -/
abbrev PageSink (ε : Type) := List Emitted → Emitted → Except ε Unit

/-- `CatalogBuilder`, with a leaf that is never full between operations. -/
structure CatalogBuilder where
  scope : CatalogScope
  sec : CatalogSection
  leaf : List UInt8
  /-- One list of references per height, the leaves first. -/
  levels : List (List CatalogPageRef)
  byteLen : ℕ
  failed : Bool
  leaf_lt : leaf.length < catalogLeafBytes

namespace CatalogBuilder

variable {ε : Type}

/-- `CatalogBuilder::new`. -/
def new (scope : CatalogScope) (sec : CatalogSection) :
    Outcome CatalogError CatalogBuilder := do
  scope.validate sec
  pure
    { scope, sec, leaf := [], levels := List.replicate (catalogMaxHeight + 1) []
      byteLen := 0, failed := false, leaf_lt := by decide }

variable (C : Crypto) (sink : PageSink ε)

/-- `store`. -/
def store (scope : CatalogScope) (sec : CatalogSection) (height : U8) (body : PageBody)
    (pages : List Emitted) : StreamOutcome ε (CatalogPageRef × List Emitted) := do
  let page ← mapErr .catalog (Page.encode C ⟨1, scope, sec, height, body⟩)
  match sink pages page with
  | .ok () => pure (page.1, pages ++ [page])
  | .error e => fail (.storage e)

/-- An index page of the given height over its children. -/
def storeIndex (scope : CatalogScope) (sec : CatalogSection) (height : ℕ)
    (children : List CatalogPageRef) (pages : List Emitted) :
    StreamOutcome ε (CatalogPageRef × List Emitted) :=
  store C sink scope sec (Fin.ofNat _ height) (.index children) pages

/-- `append`, for a reference to a leaf. -/
def append (b : CatalogBuilder) (reference : CatalogPageRef) (pages : List Emitted) :
    StreamOutcome ε (List (List CatalogPageRef) × List Emitted) :=
  carry (storeIndex C sink b.scope b.sec) catalogFanout (.catalog .bounds) 0 b.levels
    reference pages

/-- `flush_leaf`, for a leaf that holds these bytes. -/
def flushLeaf (b : CatalogBuilder) (data : List UInt8) (pages : List Emitted) :
    StreamOutcome ε (CatalogBuilder × List Emitted) := do
  let (reference, pages) ← store C sink b.scope b.sec 0 (.leaf data) pages
  let (levels, pages) ← b.append C sink reference pages
  pure ({ b with leaf := [], levels, leaf_lt := by decide }, pages)

/-- The loop of `push_inner`: fill the leaf, and flush it when it is full. -/
def fill (b : CatalogBuilder) (bytes : List UInt8) (pages : List Emitted) :
    StreamOutcome ε (CatalogBuilder × List Emitted) :=
  if hbytes : bytes = [] then .ok (b, pages)
  else
    let take := min bytes.length (catalogLeafBytes - b.leaf.length)
    have hle : (b.leaf ++ bytes.take take).length ≤ catalogLeafBytes := by
      have hlt := b.leaf_lt
      rw [length_append, length_take]
      omega
    if hfull : (b.leaf ++ bytes.take take).length = catalogLeafBytes then do
      let (next, pages) ← b.flushLeaf C sink (b.leaf ++ bytes.take take) pages
      fill next (bytes.drop take) pages
    else
      fill { b with leaf := b.leaf ++ bytes.take take, leaf_lt := lt_of_le_of_ne hle hfull }
        (bytes.drop take) pages
  termination_by bytes.length
  decreasing_by
    all_goals
      have hpos := length_pos_of_ne_nil hbytes
      have hlt := b.leaf_lt
      rw [length_drop]
      omega

/-- `push_inner`. -/
def pushInner (b : CatalogBuilder) (bytes : List UInt8) (pages : List Emitted) :
    StreamOutcome ε (CatalogBuilder × List Emitted) := do
  let byteLen := b.byteLen + bytes.length
  reject (2 ^ 64 ≤ byteLen) (.catalog .bounds)
  reject (catalogMaxStreamBytes < byteLen) (.catalog .bounds)
  fill C sink { b with byteLen } bytes pages

/-- `push`. -/
def push (state : CatalogBuilder × List Emitted) (bytes : List UInt8) :
    StreamOutcome ε Unit × CatalogBuilder × List Emitted :=
  if state.1.failed then (fail (.catalog .failed), state)
  else
    match state.1.pushInner C sink bytes state.2 with
    | .ok next => (.ok (), next)
    | .error e => (.error e, { state.1 with failed := true }, state.2)

/-- `finish`. -/
def finish (b : CatalogBuilder) (pages : List Emitted) :
    StreamOutcome ε (CatalogPageRef × List Emitted) := do
  reject b.failed (.catalog .failed)
  let (b, pages) ←
    if b.leaf ≠ [] ∨ b.byteLen = 0 then b.flushLeaf C sink b.leaf pages else .ok (b, pages)
  close (storeIndex C sink b.scope b.sec) catalogFanout (.catalog .bounds)
    (.catalog .invalidPage) (catalogMaxHeight + 1) 0 b.levels pages

/-- Successive pushes: what each returned, and the builder after the last. -/
def pushAll :
    CatalogBuilder × List Emitted → List (List UInt8) →
      List (StreamOutcome ε Unit) × CatalogBuilder × List Emitted
  | state, [] => ([], state)
  | state, piece :: pieces =>
    let (result, state) := push C sink state piece
    let (results, state) := pushAll state pieces
    (result :: results, state)

end CatalogBuilder

/-! ## What a reference stands for -/

section Tree

variable (C : Crypto) (scope : CatalogScope) (sec : CatalogSection)

variable (pages : List Emitted)

/-- Below a reference of height `h` the received pages hold these chunks of the stream. -/
def Reads : ℕ → CatalogPageRef → List (List UInt8) → Prop
  | 0, r, chunks => ∃ data bytes, chunks = [data] ∧
      Page.encode C ⟨1, scope, sec, 0, .leaf data⟩ = .ok (r, bytes) ∧ (r, bytes) ∈ pages
  | h + 1, r, chunks => ∃ children parts bytes, List.Forall₂ (Reads h) children parts ∧
      chunks = parts.flatten ∧
      Page.encode C ⟨1, scope, sec, Fin.ofNat _ (h + 1), .index children⟩ =
        .ok (r, bytes) ∧ (r, bytes) ∈ pages

/-- What the builder knows of a reference: its chunks, and that it counts the pages over them. -/
def Stands (h : ℕ) (r : CatalogPageRef) (chunks : List (List UInt8)) : Prop :=
  Reads C scope sec pages h r chunks ∧
    r.pageOccurrences.val = nodesUpTo catalogFanout h chunks.length

/-- Every page encodes to its reference, in this scope and section, and came after its
children. -/
def ChildrenFirst : Prop :=
  ∀ (i : ℕ) (r : CatalogPageRef) (bytes : List UInt8), pages[i]? = some (r, bytes) →
    ∃ page : Page, page.encode C = .ok (r, bytes) ∧ page.scope = scope ∧
      page.sec = sec ∧
      ∀ children, page.body = .index children → ∀ c ∈ children, c ∈ (pages.take i).map Prod.fst

end Tree

/-- The chunks of a stream: full leaves, and a last one that is empty only if it is alone. -/
structure Sized (chunks : List (List UInt8)) : Prop where
  shape : ∃ init last, chunks = init ++ [last] ∧ (∀ c ∈ init, c.length = catalogLeafBytes) ∧
    last.length ≤ catalogLeafBytes ∧ (init ≠ [] → last ≠ [])
  bytes_le : chunks.flatten.length ≤ catalogMaxStreamBytes

variable {parts : List (List (List UInt8))} {children : List CatalogPageRef}

section TreeLemmas

variable {C : Crypto} {scope : CatalogScope} {sec : CatalogSection}
  {pages pages' : List Emitted} {h : ℕ} {r : CatalogPageRef} {chunks : List (List UInt8)}

lemma Sized.length_le (hsized : Sized chunks) : chunks.length ≤ 279621 := by
  obtain ⟨init, last, rfl, hinit, -, -⟩ := hsized.shape
  have hbytes := hsized.bytes_le
  have hleaf : catalogLeafBytes = 61440 := rfl
  have hmax : catalogMaxStreamBytes = 17179869184 := rfl
  rw [flatten_append, length_append, length_flatten_of_full hinit, hleaf, hmax] at hbytes
  rw [length_append, length_singleton]
  omega

/-- With more than one chunk, none is empty. -/
lemma Sized.ne_nil (hsized : Sized chunks) (htwo : 2 ≤ chunks.length) : ∀ c ∈ chunks, c ≠ [] := by
  obtain ⟨init, last, rfl, hinit, -, hlast⟩ := hsized.shape
  have hne : init ≠ [] := by
    rintro rfl
    simp at htwo
  intro c hc
  rcases mem_append.mp hc with hc | hc
  · rintro rfl
    exact absurd (hinit [] hc) (by decide)
  · rw [mem_singleton.mp hc]
    exact hlast hne

lemma sum_byteLen (hall : Forall₂ (fun r xs => r.byteLen.val = xs.flatten.length) children parts) :
    (children.map fun c => c.byteLen.val).sum = parts.flatten.flatten.length := by
  induction hall with
  | nil => rfl
  | cons hfirst _ ih =>
    rw [map_cons, sum_cons, ih, hfirst, flatten_cons, flatten_append, length_append]

section

variable (hreads : Reads C scope sec pages h r chunks)

include hreads

lemma Reads.mono (hpages : pages <+: pages') : Reads C scope sec pages' h r chunks := by
  induction h generalizing r chunks with
  | zero =>
    obtain ⟨data, bytes, hchunks, hencode, hmem⟩ := hreads
    exact ⟨data, bytes, hchunks, hencode, hpages.subset hmem⟩
  | succ h ih =>
    obtain ⟨children, parts, bytes, hall, hchunks, hencode, hmem⟩ := hreads
    exact ⟨children, parts, bytes, hall.imp fun _ _ => ih, hchunks, hencode, hpages.subset hmem⟩

/-- The page of a reference is among those received. -/
lemma Reads.page :
    ∃ bytes body, (r, bytes) ∈ pages ∧
      Page.encode C ⟨1, scope, sec, Fin.ofNat _ h, body⟩ = .ok (r, bytes) := by
  cases h with
  | zero =>
    obtain ⟨data, bytes, -, hencode, hmem⟩ := hreads
    exact ⟨bytes, _, hmem, hencode⟩
  | succ h =>
    obtain ⟨children, parts, bytes, -, -, hencode, hmem⟩ := hreads
    exact ⟨bytes, _, hmem, hencode⟩

lemma Reads.valid : r.Valid := by
  obtain ⟨bytes, body, -, hencode⟩ := hreads.page
  exact Page.valid_of_encode hencode

lemma Reads.height (hh : h ≤ catalogMaxHeight) : r.height.val = h := by
  obtain ⟨bytes, body, -, hencode⟩ := hreads.page
  have hmax : catalogMaxHeight = 3 := rfl
  have hheight : r.height = Fin.ofNat _ h := (Page.encode_eq_ok.mp hencode).2.2.2.2.2
  rw [hheight, Fin.val_ofNat]
  exact Nat.mod_eq_of_lt (by omega)

/-- A reference counts the bytes of its chunks. -/
lemma Reads.byteLen : r.byteLen.val = chunks.flatten.length := by
  induction h generalizing r chunks with
  | zero =>
    obtain ⟨data, bytes, rfl, hencode, -⟩ := hreads
    have hcounts := (Page.encode_eq_ok.mp hencode).1
    obtain ⟨-, -, -, hlen, -⟩ := (Page.counts_leaf_eq_ok rfl).mp hcounts
    rw [hlen, flatten_singleton]
  | succ h ih =>
    obtain ⟨children, parts, bytes, hall, rfl, hencode, -⟩ := hreads
    have hcounts := (Page.encode_eq_ok.mp hencode).1
    obtain ⟨-, -, -, -, -, hlen, -⟩ := (Page.counts_index_eq_ok rfl).mp hcounts
    rw [hlen]
    exact sum_byteLen (hall.imp fun _ _ => ih)

end

/-- The children of an index page count the pages below it. -/
lemma sum_occurrences
    (hall : Forall₂ (fun r xs => r.pageOccurrences.val = nodesUpTo catalogFanout h xs.length)
      children parts) (hlen : children.length ≤ catalogFanout)
    (hragged : Ragged catalogFanout h parts) :
    1 + (children.map fun c => c.pageOccurrences.val).sum =
      nodesUpTo catalogFanout (h + 1) parts.flatten.length := by
  rw [map_eq_map_of_forall₂ hall, hragged.nodesUpTo_succ (by decide) (hall.length_eq ▸ hlen)]

/-- A stream within the bound has few pages. -/
lemma nodesUpTo_le {n : ℕ} (hh : h ≤ catalogMaxHeight) (hn : n ≤ 279621) :
    nodesUpTo catalogFanout h n ≤ catalogMaxPageOccurrences :=
  (nodesUpTo_mono (by decide) hh hn).trans (by decide)

end TreeLemmas

/-! ## Writing pages -/

variable {bytes data : List UInt8}

section Writing

variable {ε : Type} {C : Crypto} {scope : CatalogScope} {sec : CatalogSection}
  {sink : PageSink ε} {pages : List Emitted} {h : ℕ} {r : CatalogPageRef}

lemma CatalogBuilder.store_eq_ok (hsink : ∀ pages page, sink pages page = .ok ()) {height : U8}
    {body : PageBody} (hencode : Page.encode C ⟨1, scope, sec, height, body⟩ = .ok (r, bytes)) :
    CatalogBuilder.store C sink scope sec height body pages = .ok (r, pages ++ [(r, bytes)]) := by
  rw [CatalogBuilder.store, hencode, mapErr_ok, ok_bind, hsink]
  rfl

lemma ChildrenFirst.append {page : Page} (hfirst : ChildrenFirst C scope sec pages)
    (hencode : page.encode C = .ok (r, bytes)) (hscope : page.scope = scope)
    (hsection : page.sec = sec)
    (hchildren : ∀ children, page.body = .index children → ∀ c ∈ children, c ∈ pages.map Prod.fst) :
    ChildrenFirst C scope sec (pages ++ [(r, bytes)]) := by
  intro i r' bytes' hi
  rcases Nat.lt_or_ge i pages.length with hlt | hge
  · rw [getElem?_append_left hlt] at hi
    rw [take_append_of_le_length hlt.le]
    exact hfirst i r' bytes' hi
  · rw [getElem?_append_right hge] at hi
    have hzero : i - pages.length = 0 := by
      have hbound := (List.getElem?_eq_some_iff.mp hi).1
      rw [length_singleton] at hbound
      omega
    have hi' : i = pages.length := by omega
    rw [hzero] at hi
    cases hi
    rw [hi', take_left]
    exact ⟨page, hencode, hscope, hsection, hchildren⟩

variable (hcovers : scope.validate sec = .ok ()) (hsink : ∀ pages page, sink pages page = .ok ())

include hcovers hsink

/-- Nodes over an end part of a stream of this size can be written. -/
lemma catalogStacks {total : List (List UInt8)} (hsized : Sized total) :
    Stacks (Stands C scope sec) catalogFanout (CatalogBuilder.storeIndex C sink scope sec) (· <+: ·)
      (ChildrenFirst C scope sec) catalogMaxHeight total where
  two_le := by decide
  total_le := hsized.length_le.trans (by decide)
  refl _ := prefix_rfl
  trans := IsPrefix.trans
  mono hpages hstands := ⟨hstands.1.mono hpages, hstands.2⟩
  node := by
    intro htwo pages h children parts hh hfirst hall hlen hragged hsuffix
    have hreads : Forall₂ (Reads C scope sec pages h) children parts :=
      hall.imp fun _ _ hs => hs.1
    -- The bytes and the leaves of the part are those of an end part of the stream.
    have hbytes : parts.flatten.flatten.length ≤ catalogMaxStreamBytes := by
      refine le_trans ?_ hsized.bytes_le
      obtain ⟨before, rfl⟩ := hsuffix
      rw [flatten_append, length_append]
      omega
    have hleaves : parts.flatten.length ≤ 279621 := hsuffix.length_le.trans hsized.length_le
    have hsumBytes : (children.map fun c => c.byteLen.val).sum = parts.flatten.flatten.length :=
      sum_byteLen (hreads.imp fun _ _ => Reads.byteLen)
    have hchildren : ∀ c ∈ children, Page.IsChild (h + 1) c := by
      intro c hc
      obtain ⟨part, hpart, hread⟩ := exists_of_mem_forall₂ hreads hc
      refine ⟨hread.valid, by rw [hread.height hh.le], ?_⟩
      rw [hread.byteLen]
      obtain ⟨chunk, rest, rfl⟩ :=
        exists_cons_of_length_pos (hragged.part_pos (by decide) part hpart)
      have hchunk : chunk ∈ total := hsuffix.subset (mem_flatten.mpr ⟨_, hpart, mem_cons_self⟩)
      have hpos := length_pos_of_ne_nil (hsized.ne_nil htwo chunk hchunk)
      rw [flatten_cons, length_append]
      omega
    have hne : children ≠ [] := by
      rintro rfl
      obtain ⟨init, last, rfl, -⟩ := hragged
      cases init <;> cases hall
    -- The pages below are few, by the bound on leaves.
    have hcount := sum_occurrences (hall.imp fun _ _ hs => hs.2) hlen hragged
    obtain ⟨r, bytes, hencode, -, hocc⟩ := Page.exists_encode_index (C := C) hcovers hh hne hlen
      hchildren (hsumBytes.trans_le hbytes) (hcount.trans_le (nodesUpTo_le hh hleaves))
    refine ⟨r, pages ++ [(r, bytes)], CatalogBuilder.store_eq_ok hsink hencode,
      prefix_append _ _, hfirst.append hencode rfl rfl ?_, ⟨children, parts, bytes, ?_, rfl,
        hencode, by simp⟩, ?_⟩
    · rintro _ ⟨⟩ c hc
      obtain ⟨part, -, hread⟩ := exists_of_mem_forall₂ hreads hc
      obtain ⟨childBytes, -, hmem, -⟩ := hread.page
      exact mem_map_of_mem hmem
    · exact hreads.imp fun _ _ hreads => hreads.mono (prefix_append _ _)
    · exact hocc.trans hcount

/-- A leaf can be written. -/
lemma exists_store_leaf (hdata : data.length ≤ catalogLeafBytes)
    (hfirst : ChildrenFirst C scope sec pages) :
    ∃ r pages', CatalogBuilder.store C sink scope sec 0 (.leaf data) pages = .ok (r, pages') ∧
      pages <+: pages' ∧ ChildrenFirst C scope sec pages' ∧
      Stands C scope sec pages' 0 r [data] := by
  obtain ⟨r, bytes, hencode, -, hocc⟩ := Page.exists_encode_leaf (C := C) hcovers hdata
  refine ⟨r, pages ++ [(r, bytes)], CatalogBuilder.store_eq_ok hsink hencode,
    prefix_append _ _, hfirst.append hencode rfl rfl (by simp), ⟨data, bytes, rfl, hencode,
      by simp⟩, ?_⟩
  rw [hocc]
  rfl

end Writing

/-! ## Pushing

The loop over a piece does what pushing its bytes one by one would do, so a sequence of pushes
depends on the bytes alone. -/

namespace CatalogBuilder

variable {ε : Type} {C : Crypto} {sink : PageSink ε} {b b' : CatalogBuilder}
  {pages pages' : List Emitted}

/-- One byte: the leaf grows by it, and is flushed when that fills it. -/
def pushByte (C : Crypto) (sink : PageSink ε) (state : CatalogBuilder × List Emitted)
    (byte : UInt8) : StreamOutcome ε (CatalogBuilder × List Emitted) :=
  if hfull : state.1.leaf.length + 1 = catalogLeafBytes then
    state.1.flushLeaf C sink (state.1.leaf ++ [byte]) state.2
  else
    .ok ({ state.1 with
      leaf := state.1.leaf ++ [byte]
      leaf_lt := by
        have := state.1.leaf_lt
        rw [length_append, length_singleton]
        omega }, state.2)

/-- One turn of the loop, with names for the leaf and the rest. -/
lemma fill_step (data rest : List UInt8) (hne : bytes ≠ [])
    (hdata : data = b.leaf ++ bytes.take (catalogLeafBytes - b.leaf.length))
    (hrest : rest = bytes.drop (catalogLeafBytes - b.leaf.length)) :
    fill C sink b bytes pages =
      if hfull : data.length = catalogLeafBytes then
        flushLeaf C sink b data pages >>= fun next => fill C sink next.1 rest next.2
      else
        fill C sink { b with
          leaf := data
          leaf_lt := by
            have := b.leaf_lt
            refine lt_of_le_of_ne ?_ hfull
            rw [hdata, length_append, length_take]
            omega } rest pages := by
  have htake : bytes.take (min bytes.length (catalogLeafBytes - b.leaf.length)) =
      bytes.take (catalogLeafBytes - b.leaf.length) := by
    rw [Nat.min_comm, ← take_take, take_length]
  have hdrop : bytes.drop (min bytes.length (catalogLeafBytes - b.leaf.length)) =
      bytes.drop (catalogLeafBytes - b.leaf.length) := by
    rcases Nat.le_total bytes.length (catalogLeafBytes - b.leaf.length) with hle | hle
    · rw [Nat.min_eq_left hle, drop_length, drop_eq_nil_of_le hle]
    · rw [Nat.min_eq_right hle]
  rw [fill, dif_neg hne]
  simp only [htake, hdrop, ← hdata, ← hrest]

lemma fill_cons (x : UInt8) (xs : List UInt8) :
    fill C sink b (x :: xs) pages =
      pushByte C sink (b, pages) x >>= fun next => fill C sink next.1 xs next.2 := by
  have hlt := b.leaf_lt
  obtain ⟨room, hroom⟩ : ∃ room, catalogLeafBytes - b.leaf.length = room + 1 :=
    ⟨catalogLeafBytes - b.leaf.length - 1, by omega⟩
  rw [fill_step (b.leaf ++ x :: xs.take room) (xs.drop room) (cons_ne_nil x xs)
    (by rw [hroom, take_succ_cons]) (by rw [hroom, drop_succ_cons]), pushByte]
  by_cases hone : b.leaf.length + 1 = catalogLeafBytes
  · -- The byte fills the leaf.
    have hzero : room = 0 := by omega
    subst hzero
    rw [dif_pos (by simpa using hone), dif_pos hone, take_zero, drop_zero]
  · rw [dif_neg hone, ok_bind]
    cases xs with
    | nil =>
      have hdata : b.leaf ++ x :: List.take room [] = b.leaf ++ [x] := by simp
      rw [dif_neg (by rw [hdata, length_append, length_singleton]; exact hone)]
      simp only [hdata, drop_nil]
    | cons y ys =>
      -- The next turn takes one byte less into a leaf that has one more.
      have hlt' : (b.leaf ++ [x]).length < catalogLeafBytes := by
        rw [length_append, length_singleton]
        omega
      have hroom' : catalogLeafBytes - (b.leaf ++ [x]).length = room := by
        rw [length_append, length_singleton]
        omega
      rw [fill_step (b := { b with leaf := b.leaf ++ [x], leaf_lt := hlt' })
        (b.leaf ++ x :: List.take room (y :: ys)) (List.drop room (y :: ys))
        (cons_ne_nil y ys)
        (by simp only [hroom', append_assoc, singleton_append]) (by simp only [hroom'])]
      rfl

lemma fill_eq_foldlM (bytes : List UInt8) :
    fill C sink b bytes pages = bytes.foldlM (pushByte C sink) (b, pages) := by
  induction bytes generalizing b pages with
  | nil =>
    rw [fill]
    rfl
  | cons x xs ih =>
    rw [fill_cons, foldlM_cons]
    congr 1
    funext next
    exact ih

/-- The count of bytes, which the loop does not look at. -/
def setLen (n : ℕ) (state : CatalogBuilder × List Emitted) : CatalogBuilder × List Emitted :=
  ({ state.1 with byteLen := n }, state.2)

lemma flushLeaf_setLen (n : ℕ) (data : List UInt8) :
    flushLeaf C sink { b with byteLen := n } data pages =
      setLen n <$> flushLeaf C sink b data pages := by
  simp only [flushLeaf, append]
  cases store C sink b.scope b.sec 0 (.leaf data) pages with
  | error e => rfl
  | ok stored =>
    simp only [ok_bind]
    cases carry (storeIndex C sink b.scope b.sec) catalogFanout (.catalog .bounds) 0
      b.levels stored.1 stored.2 with
    | error e => rfl
    | ok carried => rfl

lemma pushByte_setLen (n : ℕ) (state : CatalogBuilder × List Emitted) (x : UInt8) :
    pushByte C sink (setLen n state) x = setLen n <$> pushByte C sink state x := by
  by_cases hfull : state.1.leaf.length + 1 = catalogLeafBytes
  · have hfull' : (setLen n state).1.leaf.length + 1 = catalogLeafBytes := hfull
    rw [pushByte, pushByte, dif_pos hfull, dif_pos hfull']
    exact flushLeaf_setLen n _
  · have hfull' : ¬ (setLen n state).1.leaf.length + 1 = catalogLeafBytes := hfull
    rw [pushByte, pushByte, dif_neg hfull, dif_neg hfull']
    rfl

lemma foldlM_setLen (C : Crypto) (sink : PageSink ε) (n : ℕ)
    (state : CatalogBuilder × List Emitted) (bytes : List UInt8) :
    bytes.foldlM (pushByte C sink) (setLen n state) =
      setLen n <$> bytes.foldlM (pushByte C sink) state := by
  induction bytes generalizing state with
  | nil => rfl
  | cons x xs ih =>
    rw [foldlM_cons, foldlM_cons, pushByte_setLen]
    cases pushByte C sink state x with
    | error e => rfl
    | ok next => exact ih next

end CatalogBuilder

/-! ## The invariant of pushing -/

/-- The builder has taken `xs`: full leaves are in the tree, the rest is in the open leaf. -/
structure Progress (C : Crypto) (scope : CatalogScope) (sec : CatalogSection)
    (state : CatalogBuilder × List Emitted) (xs : List UInt8) : Prop where
  scope_eq : state.1.scope = scope
  section_eq : state.1.sec = sec
  failed_eq : state.1.failed = false
  levels_length : state.1.levels.length = catalogMaxHeight + 1
  first : ChildrenFirst C scope sec state.2
  taken : ∃ chunks, (∀ c ∈ chunks, c.length = catalogLeafBytes) ∧
    Holds (Stands C scope sec) catalogFanout state.2 0 state.1.levels chunks ∧
    chunks.flatten ++ state.1.leaf = xs

namespace CatalogBuilder

variable {ε : Type} {C : Crypto} {scope : CatalogScope} {sec : CatalogSection}
  {sink : PageSink ε} {b : CatalogBuilder} {pages : List Emitted} {xs : List UInt8}

/-- Flushing a leaf adds its chunk to what the tree holds. -/
lemma exists_flushLeaf (hcovers : b.scope.validate b.sec = .ok ())
    (hsink : ∀ pages page, sink pages page = .ok ())
    (hlevels : b.levels.length = catalogMaxHeight + 1)
    (hfirst : ChildrenFirst C b.scope b.sec pages) {chunks : List (List UInt8)}
    (hsized : Sized (chunks ++ [data]))
    (hholds : Holds (Stands C b.scope b.sec) catalogFanout pages 0 b.levels chunks) :
    ∃ levels pages', flushLeaf C sink b data pages =
        .ok ({ b with leaf := [], levels, leaf_lt := by decide }, pages') ∧
      levels.length = catalogMaxHeight + 1 ∧ ChildrenFirst C b.scope b.sec pages' ∧
      Holds (Stands C b.scope b.sec) catalogFanout pages' 0 levels (chunks ++ [data]) := by
  have hdata : data.length ≤ catalogLeafBytes := by
    obtain ⟨init, last, heq, -, hle, -⟩ := hsized.shape
    obtain ⟨rfl, hlast⟩ := append_inj' heq rfl
    cases hlast
    exact hle
  obtain ⟨r, pages₁, hstore, hgrows, hfirst₁, hstands⟩ :=
    exists_store_leaf hcovers hsink hdata hfirst
  have hstacks := catalogStacks (C := C) hcovers hsink hsized
  obtain ⟨levels, pages', hcarry, -, hfirst', hlength, -, hfull⟩ :=
    carry_spec (.catalog .bounds) hstacks (h := 0) (by rw [hlevels, Nat.zero_add])
      (ne_nil_of_length_pos (by rw [hlevels]; exact Nat.succ_pos _)) hfirst₁
      (hholds.mono hstacks hgrows) hstands Nat.one_pos le_rfl rfl
  refine ⟨levels, pages', ?_, hlength.trans hlevels, hfirst', hfull rfl⟩
  rw [flushLeaf, hstore, ok_bind]
  simp only [append]
  rw [hcarry, ok_bind]
  rfl

variable {state : CatalogBuilder × List Emitted}

lemma progress_new (hnew : new scope sec = .ok b) :
    scope.validate sec = .ok () ∧ b.byteLen = 0 ∧ Progress C scope sec (b, []) [] := by
  simp only [new, bind_eq_ok, exists_unit, pure_eq_ok] at hnew
  obtain ⟨hcovers, rfl⟩ := hnew
  refine ⟨hcovers, rfl, rfl, rfl, rfl, length_replicate, by simp [ChildrenFirst], [], by simp,
    holds_replicate_nil _ _ _ (by decide), rfl⟩

/-- The builder after the bytes `xs`, however they were pushed. -/
def After (C : Crypto) (sink : PageSink ε) (start : CatalogBuilder × List Emitted)
    (xs : List UInt8) (state : CatalogBuilder × List Emitted) : Prop :=
  ∃ raw, xs.foldlM (pushByte C sink) start = .ok raw ∧ state = setLen xs.length raw

lemma after_new (hnew : new scope sec = .ok b) : After C sink (b, []) [] (b, []) := by
  obtain ⟨-, hzero, -⟩ := progress_new (C := C) hnew
  exact ⟨(b, []), rfl, by rw [setLen, length_nil, ← hzero]⟩

variable {start : CatalogBuilder × List Emitted}

lemma After.unique {s t : CatalogBuilder × List Emitted} (hs : After C sink start xs s)
    (ht : After C sink start xs t) : s = t := by
  obtain ⟨raw, hraw, rfl⟩ := hs
  obtain ⟨raw', hraw', rfl⟩ := ht
  rw [hraw] at hraw'
  cases hraw'
  rfl

/-- A push beyond the bound fails. -/
lemma push_of_lt (C : Crypto) (sink : PageSink ε) {piece : List UInt8}
    (hlen : catalogMaxStreamBytes < state.1.byteLen + piece.length) :
    ∃ e, push C sink state piece = (.error e, { state.1 with failed := true }, state.2) := by
  by_cases hfailed : state.1.failed = true
  · refine ⟨.error (.catalog .failed), ?_⟩
    rw [push, if_pos hfailed]
    obtain ⟨⟨_, _, _, _, _, _, _⟩, _⟩ := state
    simp only at hfailed
    subst hfailed
    rfl
  · have hinner : ∃ e, state.1.pushInner C sink piece state.2 = .error e := by
      rw [pushInner]
      by_cases hbig : 2 ^ 64 ≤ state.1.byteLen + piece.length
      · exact ⟨_, by rw [reject, if_pos hbig]; rfl⟩
      · refine ⟨_, by rw [reject, if_neg hbig, ok_bind, reject, if_pos hlen]; rfl⟩
    obtain ⟨e, he⟩ := hinner
    refine ⟨e, ?_⟩
    rw [push, if_neg hfailed, he]

lemma pushAll_of_failed (hfailed : state.1.failed = true) (pieces : List (List UInt8)) :
    (pushAll C sink state pieces).2.1.failed = true := by
  induction pieces generalizing state with
  | nil => exact hfailed
  | cons piece pieces ih =>
    simp only [pushAll, push, hfailed, if_true]
    exact ih hfailed

section

variable (hcovers : scope.validate sec = .ok ()) (hsink : ∀ pages page, sink pages page = .ok ())

include hcovers hsink

/-- **The step.**  A byte that keeps the stream within its bound is taken. -/
lemma exists_pushByte (hprogress : Progress C scope sec state xs) {x : UInt8}
    (hlen : (xs ++ [x]).length ≤ catalogMaxStreamBytes) :
    ∃ next, pushByte C sink state x = .ok next ∧ Progress C scope sec next (xs ++ [x]) := by
  obtain ⟨b, pages⟩ := state
  obtain ⟨rfl, rfl, hfailed, hlevels, hfirst, chunks, hchunks, hholds, rfl⟩ := hprogress
  simp only at hfailed hlevels hfirst hholds hcovers
  by_cases hfull : b.leaf.length + 1 = catalogLeafBytes
  · have hsized : Sized (chunks ++ [b.leaf ++ [x]]) :=
      { shape := ⟨chunks, b.leaf ++ [x], rfl, hchunks, by
          rw [length_append, length_singleton, hfull], by simp⟩
        bytes_le := by
          rw [flatten_append, flatten_singleton, ← append_assoc]
          exact hlen }
    obtain ⟨levels, pages', hflush, hlength, hfirst', hholds'⟩ :=
      exists_flushLeaf hcovers hsink hlevels hfirst hsized hholds
    refine ⟨({ b with leaf := [], levels, leaf_lt := by decide }, pages'), ?_, rfl, rfl, hfailed,
      hlength, hfirst', chunks ++ [b.leaf ++ [x]], ?_, hholds', ?_⟩
    · rw [pushByte, dif_pos hfull]
      exact hflush
    · intro c hc
      rcases mem_append.mp hc with hc | hc
      · exact hchunks c hc
      · rw [mem_singleton.mp hc, length_append, length_singleton, hfull]
    · simp
  · have hlt : (b.leaf ++ [x]).length < catalogLeafBytes := by
      have := b.leaf_lt
      rw [length_append, length_singleton]
      omega
    refine ⟨({ b with leaf := b.leaf ++ [x], leaf_lt := hlt }, pages), ?_, rfl, rfl, hfailed,
      hlevels, hfirst, chunks, hchunks, hholds, ?_⟩
    · rw [pushByte, dif_neg hfull]
    · simp

/-- **The run.** -/
lemma exists_foldlM_pushByte (hprogress : Progress C scope sec state xs)
    (bytes : List UInt8)     (hlen : (xs ++ bytes).length ≤ catalogMaxStreamBytes) :
    ∃ next, bytes.foldlM (pushByte C sink) state = .ok next ∧
      Progress C scope sec next (xs ++ bytes) := by
  induction bytes generalizing state xs with
  | nil => exact ⟨state, rfl, by rwa [append_nil]⟩
  | cons x rest ih =>
    have hsplit : xs ++ x :: rest = xs ++ [x] ++ rest := by simp
    rw [hsplit] at hlen ⊢
    have hone : (xs ++ [x]).length ≤ catalogMaxStreamBytes := by
      rw [length_append] at hlen
      omega
    obtain ⟨mid, hmid, hprogress'⟩ := exists_pushByte hcovers hsink hprogress hone
    obtain ⟨next, hnext, hdone⟩ := ih hprogress' hlen
    exact ⟨next, by rw [foldlM_cons, hmid, ok_bind, hnext], hdone⟩

/-- A tree over the chunks is closed into a root that stands for them. -/
lemma exists_close {levels : List (List CatalogPageRef)}
    (hlevels : levels.length = catalogMaxHeight + 1)
    (hfirst : ChildrenFirst C scope sec pages) {chunks : List (List UInt8)} (hsized : Sized chunks)
    (hholds : Holds (Stands C scope sec) catalogFanout pages 0 levels chunks) :
    ∃ root pages', close (storeIndex C sink scope sec) catalogFanout (.catalog .bounds)
        (.catalog .invalidPage) (catalogMaxHeight + 1) 0 levels pages = .ok (root, pages') ∧
      ChildrenFirst C scope sec pages' ∧
      ∃ h ≤ catalogMaxHeight, h = Nat.clog catalogFanout chunks.length ∧
        Stands C scope sec pages' h root chunks := by
  have hne : chunks ≠ [] := by
    obtain ⟨init, last, rfl, -⟩ := hsized.shape
    simp
  have hstacks := catalogStacks (C := C) hcovers hsink hsized
  obtain ⟨root, pages', hclose, -, hfirst', hstands⟩ :=
    close_spec (.catalog .bounds) (.catalog .invalidPage)
      hstacks (by rw [hlevels, Nat.zero_add]) hfirst (Nat.zero_le _) (hholds.isOpen (by decide) hne)
  rw [hlevels] at hclose
  exact ⟨root, pages', hclose, hfirst', _, Nat.clog_le_of_le_pow hstacks.total_le, rfl, hstands⟩

lemma exists_finish (hprogress : Progress C scope sec state xs)
    (hbytes : state.1.byteLen = xs.length) (hlen : xs.length ≤ catalogMaxStreamBytes) :
    ∃ root pages', finish C sink state.1 state.2 = .ok (root, pages') ∧
      ChildrenFirst C scope sec pages' ∧
      ∃ h ≤ catalogMaxHeight, ∃ chunks, Sized chunks ∧ h = Nat.clog catalogFanout chunks.length ∧
        Stands C scope sec pages' h root chunks ∧ chunks.flatten = xs := by
  obtain ⟨b, pages⟩ := state
  obtain ⟨rfl, rfl, hfailed, hlevels, hfirst, chunks, hchunks, hholds, rfl⟩ := hprogress
  simp only at hfailed hlevels hfirst hholds hbytes hcovers
  have hnone : chunks.flatten = [] → chunks = [] := by
    intro hflat
    have hcount := length_flatten_of_full hchunks
    have hleaf : catalogLeafBytes = 61440 := rfl
    rw [hflat, length_nil, hleaf] at hcount
    exact length_eq_zero_iff.mp (by omega)
  by_cases hflush : b.leaf ≠ [] ∨ b.byteLen = 0
  · -- The open leaf is the last chunk; it is empty only for the empty stream.
    have hsized : Sized (chunks ++ [b.leaf]) :=
      { shape := by
          refine ⟨chunks, b.leaf, rfl, hchunks, b.leaf_lt.le, fun hne => ?_⟩
          rcases hflush with hleaf | hzero
          · exact hleaf
          · rw [hzero] at hbytes
            have hnil := length_eq_zero_iff.mp hbytes.symm
            exact absurd (hnone (append_eq_nil_iff.mp hnil).1) hne
        bytes_le := by
          rw [flatten_append, flatten_singleton]
          exact hlen }
    obtain ⟨levels, pages₁, hflushed, hlength, hfirst₁, hholds₁⟩ :=
      exists_flushLeaf hcovers hsink hlevels hfirst hsized hholds
    obtain ⟨root, pages', hclose, hfirst', h, hh, hroot⟩ :=
      exists_close hcovers hsink hlength hfirst₁ hsized hholds₁
    refine ⟨root, pages', ?_, hfirst', h, hh, _, hsized, hroot.1, hroot.2, by simp⟩
    rw [finish, reject, if_neg (by simp [hfailed]), ok_bind, if_pos hflush, hflushed, ok_bind]
    exact hclose
  · -- The stream ended with a full leaf.
    push Not at hflush
    have hne : chunks ≠ [] := by
      rintro rfl
      rw [hflush.1] at hbytes
      exact hflush.2 hbytes
    have hsized : Sized chunks := by
      obtain ⟨init, last, rfl⟩ := (eq_nil_or_concat' chunks).resolve_left hne
      have hlast : last.length = catalogLeafBytes := hchunks last (by simp)
      exact
        { shape := ⟨init, last, rfl, fun c hc => hchunks c (mem_append_left _ hc), hlast.le,
            fun _ hnil => by rw [hnil] at hlast; exact absurd hlast (by decide)⟩
          bytes_le := by
            rw [hflush.1, append_nil] at hlen
            exact hlen }
    obtain ⟨root, pages', hclose, hfirst', h, hh, hroot⟩ :=
      exists_close hcovers hsink hlevels hfirst hsized hholds
    refine ⟨root, pages', ?_, hfirst', h, hh, chunks, hsized, hroot.1, hroot.2,
      by rw [hflush.1, append_nil]⟩
    rw [finish, reject, if_neg (by simp [hfailed]), ok_bind, if_neg (by push Not; exact hflush),
      ok_bind]
    exact hclose

variable (hstart : Progress C scope sec start [])

include hstart

lemma After.progress (hlen : xs.length ≤ catalogMaxStreamBytes) (h : After C sink start xs state) :
    Progress C scope sec state xs ∧ state.1.byteLen = xs.length := by
  obtain ⟨raw, hraw, rfl⟩ := h
  obtain ⟨next, hnext, hprogress⟩ := exists_foldlM_pushByte hcovers hsink hstart xs hlen
  rw [hraw] at hnext
  cases hnext
  exact ⟨{ hprogress with }, rfl⟩

variable (h : After C sink start xs state)

include h

/-- A push within the bound succeeds, and leaves the builder as if its bytes had followed. -/
lemma push_of_le (piece : List UInt8) (hlen : (xs ++ piece).length ≤ catalogMaxStreamBytes) :
    ∃ next, push C sink state piece = (.ok (), next) ∧ After C sink start (xs ++ piece) next := by
  have hmax : catalogMaxStreamBytes = 17179869184 := rfl
  have hxs : xs.length ≤ catalogMaxStreamBytes := by
    rw [length_append] at hlen
    omega
  obtain ⟨hprogress, hbytes⟩ := h.progress hcovers hsink hstart hxs
  obtain ⟨raw, hraw, rfl⟩ := h
  obtain ⟨next, hnext, -⟩ := exists_foldlM_pushByte hcovers hsink hstart (xs ++ piece) hlen
  have hpiece : piece.foldlM (pushByte C sink) raw = .ok next := by
    rw [foldlM_append, hraw, ok_bind] at hnext
    exact hnext
  refine ⟨setLen (xs ++ piece).length next, ?_, next, hnext, rfl⟩
  have hfailed : (setLen xs.length raw).1.failed = false := hprogress.failed_eq
  have hinner : pushInner C sink (setLen xs.length raw).1 piece (setLen xs.length raw).2 =
      .ok (setLen (xs ++ piece).length next) := by
    rw [length_append] at hlen ⊢
    simp only [pushInner, bind_eq_ok, exists_unit, reject_eq_ok]
    refine ⟨?_, ?_, ?_⟩
    · rw [hbytes]
      omega
    · rw [hbytes]
      omega
    · have hfold := foldlM_setLen C sink (xs.length + piece.length) raw piece
      rw [hpiece] at hfold
      rw [fill_eq_foldlM]
      exact hfold
  rw [push, hfailed, hinner]
  rfl

/-- However a stream within the bound is split, every push succeeds and the builder ends the
same. -/
lemma pushAll_of_le (pieces : List (List UInt8))
    (hlen : (xs ++ pieces.flatten).length ≤ catalogMaxStreamBytes) :
    (∀ result ∈ (pushAll C sink state pieces).1, result = .ok ()) ∧
      After C sink start (xs ++ pieces.flatten) (pushAll C sink state pieces).2 := by
  induction pieces generalizing xs state with
  | nil =>
    rw [flatten_nil, append_nil]
    exact ⟨by simp [pushAll], h⟩
  | cons piece pieces ih =>
    rw [flatten_cons, ← append_assoc] at hlen ⊢
    have hfirst : (xs ++ piece).length ≤ catalogMaxStreamBytes := by
      rw [length_append] at hlen
      omega
    obtain ⟨next, hpush, hafter⟩ := push_of_le hcovers hsink hstart h piece hfirst
    obtain ⟨hresults, hdone⟩ := ih hafter hlen
    simp only [pushAll, hpush]
    exact ⟨forall_mem_cons.mpr ⟨rfl, hresults⟩, hdone⟩

/-- However a longer stream is split, a push fails and the builder ends failed. -/
lemma pushAll_of_lt (pieces : List (List UInt8)) (hxs : xs.length ≤ catalogMaxStreamBytes)
    (hlen : catalogMaxStreamBytes < (xs ++ pieces.flatten).length) :
    (∃ result ∈ (pushAll C sink state pieces).1, result ≠ .ok ()) ∧
      (pushAll C sink state pieces).2.1.failed = true := by
  induction pieces generalizing xs state with
  | nil =>
    rw [flatten_nil, append_nil] at hlen
    omega
  | cons piece pieces ih =>
    rw [flatten_cons, ← append_assoc] at hlen
    rcases Nat.lt_or_ge catalogMaxStreamBytes (xs ++ piece).length with hlt | hle
    · have hbytes := (h.progress hcovers hsink hstart hxs).2
      rw [length_append, ← hbytes] at hlt
      obtain ⟨e, hpush⟩ := push_of_lt C sink hlt
      simp only [pushAll, hpush]
      exact ⟨⟨_, mem_cons_self, by simp⟩, pushAll_of_failed rfl pieces⟩
    · obtain ⟨next, hpush, hafter⟩ := push_of_le hcovers hsink hstart h piece hle
      obtain ⟨⟨result, hmem, hne⟩, hfailed⟩ := ih hafter hle hlen
      simp only [pushAll, hpush]
      exact ⟨⟨result, mem_cons_of_mem _ hmem, hne⟩, hfailed⟩

end

end CatalogBuilder

open CatalogBuilder CatalogReader

/-! ## Reading what was built -/

section ReadBack

variable {ε : Type} {C : Crypto} {scope : CatalogScope} {sec : CatalogSection}
  {serve : PageServer ε} {pages : List Emitted}

/-- The server answers for the last reference of a path with the page the sink received. -/
def Serves (serve : PageServer ε) (pages : List Emitted) : Prop :=
  ∀ log path r bytes, (r, bytes) ∈ pages → path.getLast? = some r → serve log path = .ok bytes

/-- A callback that holds the pages serves them. -/
lemma serves_byReference {fetch : PageLog → CatalogPageRef → Except ε (List UInt8)}
    (hfetch : ∀ log, ∀ page ∈ pages, fetch log page.1 = .ok page.2) (root : CatalogPageRef) :
    Serves (byReference root fetch) pages := by
  intro log path r bytes hmem hlast
  rw [byReference, getLastD_eq_getLast?, hlast]
  exact hfetch log (r, bytes) hmem

/-- The reader is in the middle of a tree: what is pending holds the remaining chunks, lower pages
before higher ones, the path reaches down to every pending page, and the root's counts are
those of what was read and what is pending. -/
structure Reading (C : Crypto) (scope : CatalogScope) (sec : CatalogSection)
    (pages : List Emitted) (reader : CatalogReader) (chunks : List (List UInt8)) : Prop where
  scope_eq : reader.scope = scope
  section_eq : reader.sec = sec
  failed_eq : reader.failed = false
  holds : ∃ parts, List.Forall₂
    (fun r part => Reads C scope sec pages r.height.val r part) reader.pending parts ∧
    parts.flatten = chunks
  height_le : ∀ r ∈ reader.pending, r.height.val ≤ reader.root.height.val
  ordered : reader.pending.Pairwise fun r r' => r.height.val ≤ r'.height.val
  path_le : ∀ r ∈ reader.pending, reader.root.height.val - r.height.val ≤ reader.path.length
  visited : reader.visited + (reader.pending.map fun r => r.pageOccurrences.val).sum =
    reader.root.pageOccurrences.val
  byteLen : reader.byteLen + (reader.pending.map fun r => r.byteLen.val).sum =
    reader.root.byteLen.val

variable {chunks : List (List UInt8)} {pending : List CatalogPageRef} {reference : CatalogPageRef}
  {s : Session}

/-- The page of a pending reference is visited. -/
lemma Reading.visit (hserves : Serves serve pages)
    (hreading : Reading C scope sec pages s.reader chunks)
    (hpending : s.reader.pending = reference :: pending) {page : Page}
    (hencode : page.encode C = .ok (reference, bytes)) (hscope : page.scope = scope)
    (hsection : page.sec = sec) (hmem : (reference, bytes) ∈ pages) :
    ∃ path log, path.length = s.reader.root.height.val - reference.height.val + 1 ∧
      visit C serve s reference pending =
        .ok (page.body, ⟨{ s.reader with pending, path, visited := s.reader.visited + 1 }, log⟩)
    := by
  have hin : reference ∈ s.reader.pending := by
    rw [hpending]
    exact mem_cons_self
  have hheight := hreading.height_le reference hin
  have htake : (s.reader.path.take (s.reader.root.height.val - reference.height.val)).length =
      s.reader.root.height.val - reference.height.val := by
    rw [length_take, Nat.min_eq_left (hreading.path_le reference hin)]
  refine ⟨s.reader.path.take (s.reader.root.height.val - reference.height.val) ++ [reference],
    s.log ++ [(_, bytes)], by rw [length_append, htake, length_singleton],
    visit_eq_ok.mpr ⟨_, bytes, page, ?_, ?_, hencode, ?_, ?_, rfl, rfl⟩⟩
  · simp only [pathTo, bind_eq_ok, exists_unit, reject_eq_ok, pure_eq_ok]
    exact ⟨by omega, by rw [htake]; simp, trivial⟩
  · exact hserves _ _ _ _ hmem (by simp)
  · rw [hscope, hreading.scope_eq]
  · rw [hsection, hreading.section_eq]

variable {reader : CatalogReader}

section

variable (hreading : Reading C scope sec pages reader chunks)

include hreading

/-- With nothing pending the counts are those of the root. -/
lemma Reading.checkFinished (hnil : reader.pending = []) : reader.checkFinished = .ok () := by
  have hvisited := hreading.visited
  have hbytes := hreading.byteLen
  rw [hnil] at hvisited hbytes
  rw [CatalogReader.checkFinished, reject_eq_ok]
  push Not
  exact ⟨hvisited, hbytes⟩

/-- Past a leaf, the rest is pending. -/
lemma Reading.leaf {path : List CatalogPageRef} {rest : List (List (List UInt8))}
    (hpending : reader.pending = reference :: pending) (hheight : reference.height.val = 0)
    (hpath : path.length = reader.root.height.val - reference.height.val + 1)
    (hread : Reads C scope sec pages 0 reference [data])
    (hrest : Forall₂ (fun r part => Reads C scope sec pages r.height.val r part)
      pending rest) :
    Reading C scope sec pages
      { reader with
        pending, path, visited := reader.visited + 1, byteLen := reader.byteLen + data.length }
      rest.flatten := by
  have hheights := hreading.height_le
  have hordered := hreading.ordered
  have hvisited := hreading.visited
  have hbytes := hreading.byteLen
  rw [hpending, forall_mem_cons] at hheights
  rw [hpending, pairwise_cons] at hordered
  rw [hpending, map_cons, sum_cons] at hvisited hbytes
  have hone := (hread.valid.leaf hheight).1
  have hlen := hread.byteLen
  rw [flatten_singleton] at hlen
  exact
    { hreading with
      holds := ⟨rest, hrest, rfl⟩
      height_le := hheights.2
      ordered := hordered.2
      path_le := fun r hr => by
        have := hordered.1 r hr
        simp only [hpath]
        omega
      visited := by
        simp only
        omega
      byteLen := by
        simp only
        omega }

/-- Past an index page, its children are pending before the rest. -/
lemma Reading.index {path : List CatalogPageRef} {h : ℕ} {rest : List (List (List UInt8))}
    (hpending : reader.pending = reference :: pending) (hheight : reference.height.val = h + 1)
    (hpath : path.length = reader.root.height.val - reference.height.val + 1)
    (hchildren : Forall₂ (Reads C scope sec pages h) children parts)
    (hencode : Page.encode C ⟨1, scope, sec, Fin.ofNat _ (h + 1), .index children⟩ =
      .ok (reference, bytes))
    (hrest : Forall₂ (fun r part => Reads C scope sec pages r.height.val r part) pending rest) :
    Reading C scope sec pages
      { reader with pending := children ++ pending, path, visited := reader.visited + 1 }
      (parts.flatten ++ rest.flatten) := by
  have hheights := hreading.height_le
  have hordered := hreading.ordered
  have hvisited := hreading.visited
  have hbytes := hreading.byteLen
  rw [hpending, forall_mem_cons] at hheights
  rw [hpending, pairwise_cons] at hordered
  rw [hpending, map_cons, sum_cons] at hvisited hbytes
  obtain ⟨hcounts, -, -, -, -, hsame⟩ := Page.encode_eq_ok.mp hencode
  obtain ⟨-, -, -, -, hchild, hsumBytes, hsumPages, -, -⟩ :=
    (Page.counts_index_eq_ok rfl).mp hcounts
  have hchildHeight : ∀ c ∈ children, c.height.val = h := by
    intro c hc
    have hsucc : c.height.val + 1 = reference.height.val := by
      rw [hsame]
      exact (hchild c hc).height_succ
    omega
  simp only at hsumBytes hsumPages
  exact
    { hreading with
      holds := by
        refine ⟨parts ++ rest, rel_append ?_ hrest, flatten_append⟩
        refine ((forall₂_and_left _ _).mpr ⟨hchildHeight, hchildren⟩).imp fun c part hc => ?_
        rw [hc.1]
        exact hc.2
      height_le := fun r hr => by
        rcases mem_append.mp hr with hr | hr
        · have := hchildHeight r hr
          have := hheights.1
          simp only
          omega
        · exact hheights.2 r hr
      ordered := by
        refine pairwise_append.mpr ⟨?_, hordered.2, fun c hc r hr => ?_⟩
        · exact pairwise_of_forall_mem_list fun c hc c' hc' => by
            rw [hchildHeight c hc, hchildHeight c' hc']
        · have := hordered.1 r hr
          have := hchildHeight c hc
          omega
      path_le := fun r hr => by
        simp only [hpath]
        rcases mem_append.mp hr with hr | hr
        · have := hchildHeight r hr
          have := hheights.1
          omega
        · have := hordered.1 r hr
          omega
      visited := by
        simp only [map_append, sum_append]
        omega
      byteLen := by
        simp only [map_append, sum_append]
        omega }

end

lemma Reading.nextInner_nil {budget : ℕ}
    (hreading : Reading C scope sec pages s.reader chunks) (hnil : s.reader.pending = []) :
    ∃ s', nextInner C serve budget s = .ok (chunks.head?, s') ∧
      Reading C scope sec pages s'.reader chunks.tail := by
  obtain ⟨parts, hparts, hchunks⟩ := hreading.holds
  rw [hnil] at hparts
  cases hparts
  cases hchunks
  exact ⟨s, nextInner_eq_ok.mpr
    (.inl ⟨hnil, hreading.checkFinished hnil, rfl⟩), hreading⟩

section

variable (hserves : Serves serve pages) (hreading : Reading C scope sec pages s.reader chunks)

include hserves hreading

/-- **The step of reading.**  A call returns the first of the remaining chunks, or nothing when
none remain. -/
lemma Reading.nextInner {budget : ℕ}
    (hbudget : (s.reader.pending.map fun r => r.pageOccurrences.val).sum ≤ budget) :
    ∃ s', nextInner C serve budget s = .ok (chunks.head?, s') ∧
      Reading C scope sec pages s'.reader chunks.tail := by
  induction budget generalizing s chunks with
  | zero =>
    -- A pending page would count for at least one.
    refine hreading.nextInner_nil (eq_nil_iff_forall_not_mem.mpr fun r hr => ?_)
    obtain ⟨parts, hparts, -⟩ := hreading.holds
    obtain ⟨part, -, hread⟩ := exists_of_mem_forall₂ hparts hr
    have hpos := hread.valid.occurrences_pos
    have hle : r.pageOccurrences.val ≤ (s.reader.pending.map fun r => r.pageOccurrences.val).sum :=
      single_le_sum (fun _ _ => Nat.zero_le _) _
        (mem_map_of_mem (f := fun r => r.pageOccurrences.val) hr)
    omega
  | succ budget ih =>
    cases hpending : s.reader.pending with
    | nil => exact hreading.nextInner_nil hpending
    | cons reference pending =>
      obtain ⟨parts, hparts, rfl⟩ := hreading.holds
      rw [hpending] at hparts
      rw [hpending, map_cons, sum_cons] at hbudget
      obtain ⟨part, rest, hread, hrest, rfl⟩ := forall₂_cons_left_iff.mp hparts
      obtain ⟨h, hheight⟩ : ∃ h, reference.height.val = h := ⟨_, rfl⟩
      rw [hheight] at hread
      cases h with
      | zero =>
        obtain ⟨data, bytes, rfl, hencode, hmem⟩ := hread
        have hdata : Reads C scope sec pages 0 reference [data] :=
          ⟨data, bytes, rfl, hencode, hmem⟩
        obtain ⟨path, log, hpath, hvisit⟩ := hreading.visit hserves hpending hencode rfl rfl hmem
        have hnext := hreading.leaf hpending hheight hpath hdata hrest
        have hbytes := hnext.byteLen
        refine ⟨_, nextInner_eq_ok.mpr (.inr ⟨reference, pending, budget, _, _,
          hpending, rfl, hvisit, _, takeLeaf_eq_ok.mpr ⟨rfl, ?_, ?_⟩, rfl⟩),
          hnext⟩
        · simp only at hbytes ⊢
          omega
        · exact hnext.checkFinished
      | succ h =>
        obtain ⟨children, parts', bytes, hchildren, rfl, hencode, hmem⟩ := hread
        obtain ⟨path, log, hpath, hvisit⟩ := hreading.visit hserves hpending hencode rfl rfl hmem
        have hnext := hreading.index hpending hheight hpath hchildren hencode hrest
        have hvisited := hnext.visited
        have hbefore := hreading.visited
        rw [hpending, map_cons, sum_cons] at hbefore
        have hcount : ((children ++ pending).map fun r => r.pageOccurrences.val).sum ≤
            budget := by
          simp only at hvisited
          omega
        obtain ⟨s', hinner, hdone⟩ := ih (s := ⟨_, log⟩) hnext hcount
        refine ⟨s', nextInner_eq_ok.mpr (.inr ⟨reference, pending, budget, _, _,
          hpending, rfl, hvisit, ?_⟩), hdone⟩
        exact hinner

lemma Reading.nextLeafWithPath :
    ∃ s', nextLeafWithPath C serve s = (.ok chunks.head?, s') ∧
      Reading C scope sec pages s'.reader chunks.tail := by
  have hvisited := hreading.visited
  have hbudget : (s.reader.pending.map fun r => r.pageOccurrences.val).sum ≤
      s.reader.root.pageOccurrences.val - s.reader.visited := by omega
  obtain ⟨s', hinner, hdone⟩ := hreading.nextInner hserves hbudget
  exact ⟨s', nextLeafWithPath_eq_ok.mpr ⟨hreading.failed_eq, hinner⟩, hdone⟩

/-- **The run of reading.**  The remaining chunks are returned one by one, and then the end. -/
lemma Reading.readToEnd : ∃ t, ReadToEnd C serve s chunks t := by
  induction chunks generalizing s with
  | nil =>
    obtain ⟨t, hend, -⟩ := hreading.nextLeafWithPath hserves
    exact ⟨t, s, .nil s, hend⟩
  | cons chunk chunks ih =>
    obtain ⟨s', hfirst, hrest⟩ := hreading.nextLeafWithPath hserves
    obtain ⟨t, m, hreturned, hend⟩ := ih hrest
    exact ⟨t, m, .cons hfirst hreturned, hend⟩

end

/-- A reader starts with the root pending. -/
lemma reading_new {root : CatalogPageRef} {h : ℕ} (hcovers : scope.validate sec = .ok ())
    (hh : h ≤ catalogMaxHeight) (hreads : Reads C scope sec pages h root chunks) :
    ∃ reader, CatalogReader.new scope sec root = .ok reader ∧
      reader.root = root ∧ Reading C scope sec pages reader chunks := by
  have hvalid : root.validate = .ok () := CatalogPageRef.validate_eq_ok.mpr hreads.valid
  have hheight := hreads.height hh
  refine ⟨⟨scope, sec, root, [root], [], 0, 0, false⟩, ?_, rfl, ?_⟩
  · rw [CatalogReader.new, hvalid, ok_bind, hcovers, ok_bind]
    rfl
  · exact
      { scope_eq := rfl
        section_eq := rfl
        failed_eq := rfl
        holds := ⟨[chunks], .cons (by rw [hheight]; exact hreads) .nil, by simp⟩
        height_le := by simp
        ordered := by simp
        path_le := by simp
        visited := by simp
        byteLen := by simp }

end ReadBack

/-! ## The round trip -/

/-- **Build and read back.**  A stream within the bound is built whatever way it is pushed, and
the root and the pages depend on its bytes alone; every page verifies against its reference and
came after its children; and a reader served with these pages returns the stream.  A longer stream
is never built: a push fails, and so does `finish`. -/
theorem catalog_round_trip {ε : Type} (C : Crypto) {scope : CatalogScope}
    {sec : CatalogSection} {builder : CatalogBuilder}
    (hnew : CatalogBuilder.new scope sec = .ok builder) (sink : PageSink ε)
    (hsink : ∀ pages page, sink pages page = .ok ()) (b : List UInt8) :
    (b.length ≤ catalogMaxStreamBytes → ∃ root pages,
      (∀ pieces : List (List UInt8), pieces.flatten = b →
        (∀ result ∈ (pushAll C sink (builder, []) pieces).1, result = .ok ()) ∧
        finish C sink (pushAll C sink (builder, []) pieces).2.1
          (pushAll C sink (builder, []) pieces).2.2 = .ok (root, pages)) ∧
      (∀ (i : ℕ) (r : CatalogPageRef) (bytes : List UInt8), pages[i]? = some (r, bytes) →
        ∃ page, verifyPage C r scope sec bytes = .ok page ∧
          ∀ children, page.body = .index children →
            ∀ c ∈ children, c ∈ (pages.take i).map Prod.fst) ∧
      ∀ {ε' : Type} (fetch : PageLog → CatalogPageRef → Except ε' (List UInt8)),
        (∀ log, ∀ page ∈ pages, fetch log page.1 = .ok page.2) →
        ∃ reader leaves t, CatalogReader.new scope sec root = .ok reader ∧
          ReadToEnd C (byReference root fetch) (.start reader) leaves t ∧
          leaves.flatten = b) ∧
    (catalogMaxStreamBytes < b.length → ∀ pieces : List (List UInt8), pieces.flatten = b →
      (∃ result ∈ (pushAll C sink (builder, []) pieces).1, result ≠ .ok ()) ∧
      ∀ root pages, finish C sink
        (pushAll C sink (builder, []) pieces).2.1
        (pushAll C sink (builder, []) pieces).2.2 ≠ .ok (root, pages)) := by
  obtain ⟨hcovers, -, hstart⟩ := progress_new (C := C) hnew
  have hbegin : After C sink (builder, []) [] (builder, []) :=
    after_new hnew
  constructor
  · intro hlen
    -- One push of the whole stream fixes the builder before `finish`.
    obtain ⟨state, -, hafter⟩ := push_of_le hcovers hsink hstart hbegin b hlen
    rw [nil_append] at hafter
    obtain ⟨hprogress, hbytes⟩ := hafter.progress hcovers hsink hstart hlen
    obtain ⟨root, pages, hfinish, hfirst, h, hh, chunks, -, -, ⟨hreads, -⟩, hchunks⟩ :=
      exists_finish hcovers hsink hprogress hbytes hlen
    refine ⟨root, pages, fun pieces hpieces => ?_, fun i r bytes hi => ?_, fun fetch hfetch => ?_⟩
    · obtain ⟨hresults, hdone⟩ := pushAll_of_le hcovers hsink hstart hbegin pieces
        (by rw [nil_append, hpieces]; exact hlen)
      rw [nil_append, hpieces] at hdone
      rw [hdone.unique hafter]
      exact ⟨hresults, hfinish⟩
    · obtain ⟨page, hencode, hscope, hsection, hchildren⟩ := hfirst i r bytes hi
      exact ⟨page, verifyPage_eq_ok.mpr ⟨hencode, hscope, hsection⟩, hchildren⟩
    · obtain ⟨reader, hreader, -, hreading⟩ := reading_new hcovers hh hreads
      obtain ⟨t, hread⟩ :=
        Reading.readToEnd (s := .start reader) (serves_byReference hfetch root) hreading
      exact ⟨reader, chunks, t, hreader, hread, hchunks⟩
  · intro hlt pieces hpieces
    obtain ⟨hresult, hfailed⟩ := pushAll_of_lt hcovers hsink hstart hbegin pieces
      (Nat.zero_le _) (by rw [nil_append, hpieces]; exact hlt)
    refine ⟨hresult, fun root pages hfinish => ?_⟩
    rw [finish, reject, if_pos hfailed] at hfinish
    cases hfinish

/-- A sink that accepts everything. -/
def acceptAll : PageSink Unit := fun _ _ => .ok ()

theorem catalog_round_trip_two_bytes :
    ∃ builder, CatalogBuilder.new (.guild 1) .packing = .ok builder ∧
      ∃ root pages, ∀ pieces : List (List UInt8), pieces.flatten = [7, 8] →
        finish .transparent acceptAll
          (pushAll .transparent acceptAll (builder, []) pieces).2.1
          (pushAll .transparent acceptAll (builder, []) pieces).2.2 =
            .ok (root, pages) := by
  have hnew : CatalogBuilder.new (.guild 1) .packing =
      .ok ⟨.guild 1, .packing, [], List.replicate 4 [], 0, false, by decide⟩ := rfl
  obtain ⟨root, pages, hbuilt, -⟩ :=
    (catalog_round_trip .transparent hnew acceptAll (fun _ _ => rfl) [7, 8]).1 (by decide)
  exact ⟨_, hnew, root, pages, fun pieces hpieces => (hbuilt pieces hpieces).2⟩

end MutualBackup

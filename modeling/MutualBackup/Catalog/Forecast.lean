import MutualBackup.Catalog.Builder
import Mathlib.GroupTheory.GroupAction.Ring

/-!
# Forecasts of pages

Before a stream is built its pages are forecast from its length.  `coding_directory` and
`packing_directory` each have a `dense_pages` for one tree, by repeated division: the first divides
at most `catalogMaxHeight` times and checks its sums, the second loops until one node is left.
`dense_forest_pages` bounds the pages of several trees from their bytes together.

A tree over `n` leaves has `pagesOver n` pages, on the heights up to the least that has room.  Both
loops count them (`Counting` is their invariant), and so does the builder: the root it closes is of
least height, and the sink has received as many pages as its references count (`Balanced`).  For a
forest every division may round up once per tree, which `sum_le_of_rounding` says once and
`sum_nodesUpTo_le` carries through the heights.
-/

namespace MutualBackup

open Framework List CatalogBuilder

/-! ## The forecasts -/

lemma ceilDiv_le_self (n d : ℕ) : n ⌈/⌉ d ≤ n := by
  rcases Nat.eq_zero_or_pos d with rfl | hd
  · rw [ceilDiv_zero]
    exact Nat.zero_le n
  · rw [ceilDiv_le_iff_le_mul hd]
    exact Nat.le_mul_of_pos_left n hd

/-- `u64::div_ceil`. -/
def divCeil (a : U64) (d : ℕ) : U64 := ⟨a.val ⌈/⌉ d, (ceilDiv_le_self a.val d).trans_lt a.isLt⟩

/-- The leaves of a dense stream: an empty one has one. -/
def denseLeaves (bytes : U64) : U64 := max (divCeil bytes catalogLeafBytes) 1

namespace CodingDirectory

/-- The loop of `dense_pages`, with `n` rounds left. -/
def denseRounds : ℕ → U64 → U64 → Outcome CatalogError U64
  | 0, nodes, pages => do
    reject (nodes ≠ 1) .bounds
    pure pages
  | n + 1, nodes, pages =>
    if nodes = 1 then .ok pages
    else do
      let nodes := divCeil nodes catalogFanout
      let pages ← okOr (checkedAdd pages nodes) .bounds
      denseRounds n nodes pages

/-- `dense_pages` of `coding_directory`. -/
def densePages (bytes : U64) : Outcome CatalogError U64 :=
  denseRounds catalogMaxHeight (denseLeaves bytes) (denseLeaves bytes)

end CodingDirectory

namespace PackingDirectory

/-- The loop of `dense_pages`, whose sum is not checked. -/
def denseRounds (nodes pages : U64) : Outcome CatalogError U64 :=
  if 1 < nodes.val then do
    let pages ← uncheckedAdd pages (divCeil nodes catalogFanout)
    denseRounds (divCeil nodes catalogFanout) pages
  else .ok pages
  termination_by nodes.val
  decreasing_by
    have hle : nodes.val ⌈/⌉ catalogFanout ≤ nodes.val - 1 := by
      have hfan : catalogFanout = 128 := rfl
      rw [ceilDiv_le_iff_le_mul (by decide), hfan]
      omega
    have hval : (divCeil nodes catalogFanout).val = nodes.val ⌈/⌉ catalogFanout := rfl
    omega

/-- `dense_pages` of `packing_directory`. -/
def densePages (bytes : U64) : Outcome CatalogError U64 :=
  denseRounds (denseLeaves bytes) (denseLeaves bytes)

end PackingDirectory

/-- The loop of `dense_forest_pages`, with `n` rounds left. -/
def denseForestRounds (rounding : U64) : ℕ → U64 → U64 → Outcome CatalogError U64
  | 0, _, pages => .ok pages
  | n + 1, nodes, pages => do
    let nodes ← okOr (checkedAdd (divCeil nodes catalogFanout) rounding) .bounds
    let pages ← okOr (checkedAdd pages nodes) .bounds
    denseForestRounds rounding n nodes pages

/-- `dense_forest_pages`. -/
def denseForestPages (bytes forests : U64) : Outcome CatalogError U64 :=
  if forests = 0 then
    if bytes = 0 then .ok 0 else fail .bounds
  else do
    let nodes ← okOr (checkedAdd (denseLeaves bytes) (forests - 1)) .bounds
    denseForestRounds (forests - 1) catalogMaxHeight nodes nodes

/-! ## One tree -/

/-- The pages of a tree over `n` leaves. -/
def pagesOver (n : ℕ) : ℕ := nodesUpTo catalogFanout (Nat.clog catalogFanout n) n

lemma val_denseLeaves (bytes : U64) :
    (denseLeaves bytes).val = max (bytes.val ⌈/⌉ catalogLeafBytes) 1 := by
  rw [denseLeaves, Fin.coe_max]
  rfl

lemma denseLeaves_pos (bytes : U64) : 0 < (denseLeaves bytes).val := by
  rw [val_denseLeaves]
  exact Nat.lt_of_lt_of_le Nat.one_pos (Nat.le_max_right _ _)

variable {bytes : U64}

lemma denseLeaves_le (hbytes : bytes.val ≤ catalogMaxStreamBytes) :
    (denseLeaves bytes).val ≤ 279621 := by
  have hleaves : bytes.val ⌈/⌉ catalogLeafBytes ≤ 279621 := by
    have hleaf : catalogLeafBytes = 61440 := rfl
    have hmax : catalogMaxStreamBytes = 17179869184 := rfl
    rw [Nat.ceilDiv_eq_add_pred_div, hleaf]
    omega
  rw [val_denseLeaves]
  omega

lemma clog_le_maxHeight {n : ℕ} (hn : n ≤ 279621) :
    Nat.clog catalogFanout n ≤ catalogMaxHeight :=
  Nat.clog_le_of_le_pow (hn.trans (by decide))

/-- After `i` rounds over `n` leaves: `nodes` is the row of height `i`, and `pages` counts the rows
so far, none of which was the last. -/
structure Counting (n i : ℕ) (nodes pages : U64) : Prop where
  pos : 0 < n
  le : n ≤ 279621
  nodes_eq : nodes.val = n ⌈/⌉ catalogFanout ^ i
  pages_eq : pages.val = nodesUpTo catalogFanout i n
  height_le : i ≤ Nat.clog catalogFanout n

namespace Counting

variable {n i : ℕ} {nodes pages : U64}

lemma start (hbytes : bytes.val ≤ catalogMaxStreamBytes) :
    Counting (denseLeaves bytes).val 0 (denseLeaves bytes) (denseLeaves bytes) where
  pos := denseLeaves_pos bytes
  le := denseLeaves_le hbytes
  nodes_eq := by rw [pow_zero, ceilDiv_one]
  pages_eq := rfl
  height_le := Nat.zero_le _

section

variable (h : Counting n i nodes pages)

include h

/-- One node is left where the height has room. -/
lemma nodes_le_one_iff : nodes.val ≤ 1 ↔ Nat.clog catalogFanout n ≤ i := by
  rw [h.nodes_eq, ceilDiv_le_iff_le_mul (pow_pos (by decide) i), Nat.mul_one,
    Nat.clog_le_iff_le_pow (by decide)]

lemma nodes_pos : 0 < nodes.val := by
  rw [h.nodes_eq]
  refine Nat.pos_of_ne_zero fun hzero => ?_
  have hle := (ceilDiv_le_iff_le_mul (pow_pos (by decide : 0 < catalogFanout) i)).mp hzero.le
  have := h.pos
  omega

/-- With one node left the count is complete. -/
lemma done (hone : nodes.val ≤ 1) : pages.val = pagesOver n := by
  rw [h.pages_eq, pagesOver, Nat.le_antisymm (h.nodes_le_one_iff.mp hone) h.height_le]

/-- **The round.**  With more nodes left the next row is counted, without overflow. -/
lemma next (hmore : 1 < nodes.val) :
    ∃ pages', checkedAdd pages (divCeil nodes catalogFanout) = some pages' ∧
      Counting n (i + 1) (divCeil nodes catalogFanout) pages' := by
  have hheight : i + 1 ≤ Nat.clog catalogFanout n := by
    rw [Nat.succ_le_iff, ← Nat.not_le, ← h.nodes_le_one_iff]
    omega
  have hnodes : (divCeil nodes catalogFanout).val = n ⌈/⌉ catalogFanout ^ (i + 1) := by
    have hpow : catalogFanout ^ (i + 1) = catalogFanout ^ i * catalogFanout := pow_succ _ _
    rw [hpow, ← ceilDiv_ceilDiv (pow_pos (by decide) i) (by decide), ← h.nodes_eq]
    rfl
  have hsum : pages.val + (divCeil nodes catalogFanout).val =
      nodesUpTo catalogFanout (i + 1) n := by
    rw [h.pages_eq, hnodes, nodesUpTo]
  have hle : nodesUpTo catalogFanout (i + 1) n ≤ 1000000 :=
    nodesUpTo_le (hheight.trans (clog_le_maxHeight h.le)) h.le
  refine ⟨⟨nodesUpTo catalogFanout (i + 1) n, by omega⟩, checkedAdd_eq_some.mpr hsum.symm, ?_⟩
  exact ⟨h.pos, h.le, hnodes, rfl, hheight⟩

/-- The first loop ends in its rounds. -/
lemma codingRounds (m : ℕ) (him : i + m = catalogMaxHeight) :
    ∃ count, CodingDirectory.denseRounds m nodes pages = .ok count ∧ count.val = pagesOver n := by
  induction m generalizing i nodes pages with
  | zero =>
    have hle : nodes.val ≤ 1 := by
      rw [h.nodes_le_one_iff, ← Nat.add_zero i, him]
      exact clog_le_maxHeight h.le
    have hone : nodes = 1 := Fin.ext (Nat.le_antisymm hle h.nodes_pos)
    exact ⟨pages, by rw [CodingDirectory.denseRounds, hone]; rfl, h.done hle⟩
  | succ m ih =>
    rw [CodingDirectory.denseRounds]
    by_cases hone : nodes = 1
    · rw [if_pos hone]
      exact ⟨pages, rfl, h.done (by rw [hone]; rfl)⟩
    · have hmore : 1 < nodes.val := lt_of_le_of_ne h.nodes_pos fun heq => hone (Fin.ext heq.symm)
      obtain ⟨pages', hadd, hnext⟩ := h.next hmore
      obtain ⟨count, hrounds, hcount⟩ := ih hnext (by omega)
      refine ⟨count, ?_, hcount⟩
      rw [if_neg hone]
      simp only [hadd]
      exact hrounds

/-- The second loop ends, and its sums do not overflow. -/
lemma packingRounds (m : ℕ) (him : i + m = Nat.clog catalogFanout n) :
    ∃ count, PackingDirectory.denseRounds nodes pages = .ok count ∧ count.val = pagesOver n := by
  induction m generalizing i nodes pages with
  | zero =>
    have hle : nodes.val ≤ 1 := h.nodes_le_one_iff.mpr (by omega)
    exact ⟨pages, by rw [PackingDirectory.denseRounds, if_neg (by omega)], h.done hle⟩
  | succ m ih =>
    have hmore : 1 < nodes.val := by
      rw [← Nat.not_le, h.nodes_le_one_iff]
      omega
    obtain ⟨pages', hadd, hnext⟩ := h.next hmore
    obtain ⟨count, hrounds, hcount⟩ := ih hnext (by omega)
    refine ⟨count, ?_, hcount⟩
    rw [PackingDirectory.denseRounds, if_pos hmore, uncheckedAdd_of_checkedAdd hadd, ok_bind]
    exact hrounds

end

end Counting

/-- **One tree.**  Both forecasts of a length within the bound are the pages over its leaves. -/
lemma exists_densePages (hbytes : bytes.val ≤ catalogMaxStreamBytes) :
    ∃ count : U64, CodingDirectory.densePages bytes = .ok count ∧
      PackingDirectory.densePages bytes = .ok count ∧
      count.val = pagesOver (denseLeaves bytes).val := by
  have hstart := Counting.start hbytes
  obtain ⟨count, hcoding, hcount⟩ := hstart.codingRounds catalogMaxHeight (Nat.zero_add _)
  obtain ⟨count', hpacking, hcount'⟩ := hstart.packingRounds _ (Nat.zero_add _)
  have hsame : count' = count := Fin.ext (hcount'.trans hcount.symm)
  exact ⟨count, hcoding, hsame ▸ hpacking, hcount⟩

/-! ## What the builder writes -/

/-- The sink has received as many pages as the references in hand count. -/
def Balanced (state : CatalogBuilder × List Emitted) : Prop :=
  state.2.length = (state.1.levels.flatten.map fun r => r.pageOccurrences.val).sum

variable {sec : CatalogSection} {scope : CatalogScope}

namespace CatalogBuilder

variable {ε : Type} {C : Crypto} {sink : PageSink ε} {b b' : CatalogBuilder}
  {pages pages' : List Emitted} {root : CatalogPageRef}

lemma of_store {height : U8} {body : PageBody} {r : CatalogPageRef}
    (hstore : store C sink scope sec height body pages = .ok (r, pages')) :
    ∃ bytes, Page.encode C ⟨1, scope, sec, height, body⟩ = .ok (r, bytes) ∧
      pages' = pages ++ [(r, bytes)] := by
  simp only [store, bind_eq_ok, mapErr_eq_ok] at hstore
  obtain ⟨⟨r', bytes⟩, hencode, haccept⟩ := hstore
  cases hsink : sink pages (r', bytes) with
  | error e =>
    rw [hsink] at haccept
    cases haccept
  | ok u =>
    rw [hsink] at haccept
    cases haccept
    exact ⟨bytes, hencode, rfl⟩

/-- An index page counts itself and what its children count. -/
lemma storeIndex_weight {height : ℕ} {children : List CatalogPageRef} {r : CatalogPageRef}
    (hstore : storeIndex C sink scope sec height children pages = .ok (r, pages')) :
    pages'.length + (children.map fun c => c.pageOccurrences.val).sum =
      pages.length + r.pageOccurrences.val := by
  obtain ⟨bytes, hencode, rfl⟩ := of_store hstore
  obtain ⟨-, -, -, -, -, -, hcount, -⟩ :=
    (Page.counts_index_eq_ok rfl).mp (Page.encode_eq_ok.mp hencode).1
  simp only at hcount
  rw [length_append, length_singleton]
  omega

lemma flushLeaf_balanced {data : List UInt8} (hbalanced : Balanced (b, pages))
    (hflush : flushLeaf C sink b data pages = .ok (b', pages')) : Balanced (b', pages') := by
  simp only [flushLeaf, append, bind_eq_ok, pure_eq_ok, Prod.exists] at hflush
  obtain ⟨r, pages₁, hstore, levels, pages₂, hcarry, heq⟩ := hflush
  cases heq
  obtain ⟨bytes, hencode, rfl⟩ := of_store hstore
  obtain ⟨-, -, -, -, hone⟩ := (Page.counts_leaf_eq_ok rfl).mp (Page.encode_eq_ok.mp hencode).1
  have hweight := carry_weight (z := List.length) storeIndex_weight hcarry
  simp only [Balanced] at hbalanced ⊢
  simp only [length_append, length_singleton] at hweight hone
  omega

variable {state state' : CatalogBuilder × List Emitted} {xs : List UInt8}

lemma foldlM_balanced (hbalanced : Balanced state)
    (hpush : xs.foldlM (pushByte C sink) state = .ok state') : Balanced state' := by
  induction xs generalizing state with
  | nil =>
    cases hpush
    exact hbalanced
  | cons x xs ih =>
    rw [foldlM_cons, bind_eq_ok] at hpush
    obtain ⟨mid, hmid, hrest⟩ := hpush
    refine ih ?_ hrest
    rw [pushByte] at hmid
    split_ifs at hmid
    · exact flushLeaf_balanced hbalanced hmid
    · cases hmid
      exact hbalanced

variable {x : CatalogPageRef × List Emitted}

lemma of_finish (hfinish : finish C sink b pages = .ok x) :
    b.failed = false ∧ ∃ b₁ pages₁,
      (flushLeaf C sink b b.leaf pages = .ok (b₁, pages₁) ∧ (b.leaf ≠ [] ∨ b.byteLen = 0) ∨
        (b₁, pages₁) = (b, pages) ∧ ¬(b.leaf ≠ [] ∨ b.byteLen = 0)) ∧
      close (storeIndex C sink b₁.scope b₁.sec) catalogFanout (.catalog .bounds)
        (.catalog .invalidPage) (catalogMaxHeight + 1) 0 b₁.levels pages₁ = .ok x := by
  simp only [finish, bind_eq_ok, exists_unit, reject_eq_ok, Bool.not_eq_true] at hfinish
  refine ⟨hfinish.1, ?_⟩
  replace hfinish := hfinish.2
  split_ifs at hfinish with hleaf
  · simp only [bind_eq_ok, Prod.exists] at hfinish
    obtain ⟨b₁, pages₁, hflush, hclose⟩ := hfinish
    exact ⟨b₁, pages₁, .inl ⟨hflush, hleaf⟩, hclose⟩
  · exact ⟨b, pages, .inr ⟨rfl, hleaf⟩, hfinish⟩

/-- The root counts the pages that the sink has received. -/
lemma finish_balanced (hbalanced : Balanced (b, pages))
    (hfinish : finish C sink b pages = .ok (root, pages')) :
    pages'.length = root.pageOccurrences.val := by
  obtain ⟨-, b₁, pages₁, hflush, hclose⟩ := of_finish hfinish
  have hbalanced₁ : Balanced (b₁, pages₁) := by
    rcases hflush with ⟨hflush, -⟩ | ⟨hsame, -⟩
    · exact flushLeaf_balanced hbalanced hflush
    · rw [hsame]
      exact hbalanced
  have hweight := close_weight (z := List.length) storeIndex_weight hclose
  simp only [Balanced] at hbalanced₁
  omega

/-! A sink that refuses nothing does what any other does where that accepts. -/

/-- A sink that refuses nothing. -/
def accepting (ε : Type) : PageSink ε := fun _ _ => .ok ()

lemma accepting_eq_ok (pages : List Emitted) (page : Emitted) :
    accepting ε pages page = .ok () :=
  rfl

lemma store_accepting {height : U8} {body : PageBody}
    (hstore : store C sink scope sec height body pages = .ok x) :
    store C (accepting ε) scope sec height body pages = .ok x := by
  obtain ⟨r, pages'⟩ := x
  obtain ⟨bytes, hencode, rfl⟩ := of_store hstore
  exact store_eq_ok accepting_eq_ok hencode

lemma flushLeaf_accepting {data : List UInt8} {x : CatalogBuilder × List Emitted}
    (hflush : flushLeaf C sink b data pages = .ok x) :
    flushLeaf C (accepting ε) b data pages = .ok x := by
  simp only [flushLeaf, append, bind_eq_ok] at hflush ⊢
  obtain ⟨y, hstore, z, hcarry, heq⟩ := hflush
  exact ⟨y, store_accepting hstore, z, carry_imp store_accepting hcarry, heq⟩

lemma foldlM_accepting (hpush : xs.foldlM (pushByte C sink) state = .ok state') :
    xs.foldlM (pushByte C (accepting ε)) state = .ok state' := by
  induction xs generalizing state with
  | nil => exact hpush
  | cons x xs ih =>
    rw [foldlM_cons, bind_eq_ok] at hpush ⊢
    obtain ⟨mid, hmid, hrest⟩ := hpush
    refine ⟨mid, ?_, ih hrest⟩
    rw [pushByte] at hmid ⊢
    split_ifs at hmid ⊢
    · exact flushLeaf_accepting hmid
    · exact hmid

/-- Pushes that leave the builder usable were all accepted. -/
lemma pushAll_accepting (pieces : List (List UInt8))
    (husable : (pushAll C sink state pieces).2.1.failed = false) :
    (pushAll C (accepting ε) state pieces).2 = (pushAll C sink state pieces).2 := by
  induction pieces generalizing state with
  | nil => rfl
  | cons piece pieces ih =>
    simp only [pushAll] at husable ⊢
    by_cases hfailed : state.1.failed = true
    · rw [push, if_pos hfailed, pushAll_of_failed hfailed] at husable
      cases husable
    · rw [push, if_neg hfailed] at husable ⊢
      rw [push, if_neg hfailed]
      cases hinner : state.1.pushInner C sink piece state.2 with
      | error e =>
        rw [hinner] at husable
        simp only at husable
        rw [pushAll_of_failed rfl] at husable
        cases husable
      | ok next =>
        rw [hinner] at husable
        have hsame : state.1.pushInner C (accepting ε) piece state.2 = .ok next := by
          simp only [pushInner, bind_eq_ok, exists_unit, fill_eq_foldlM] at hinner ⊢
          exact ⟨hinner.1, hinner.2.1, foldlM_accepting hinner.2.2⟩
        rw [hsame]
        exact ih husable

lemma finish_accepting (hfinish : finish C sink b pages = .ok x) :
    finish C (accepting ε) b pages = .ok x := by
  obtain ⟨husable, b₁, pages₁, hflush, hclose⟩ := of_finish hfinish
  have hclose' := close_imp store_accepting hclose
  rw [finish, reject, if_neg (by simp [husable]), ok_bind]
  rcases hflush with ⟨hflush, hleaf⟩ | ⟨hsame, hleaf⟩
  · rw [if_pos hleaf, flushLeaf_accepting hflush, ok_bind]
    exact hclose'
  · cases hsame
    rw [if_neg hleaf, ok_bind]
    exact hclose'

end CatalogBuilder

/-- The chunks of a stream are its leaves. -/
lemma Sized.length_eq {chunks : List (List UInt8)} (hsized : Sized chunks) :
    chunks.length = max (chunks.flatten.length ⌈/⌉ catalogLeafBytes) 1 := by
  obtain ⟨init, last, rfl, hinit, hlast, hne⟩ := hsized.shape
  have hbytes : (init ++ [last]).flatten.length = catalogLeafBytes * init.length + last.length := by
    rw [flatten_append, flatten_singleton, length_append,
      length_flatten_of_full hinit, Nat.mul_comm]
  rw [hbytes, mul_add_ceilDiv (by decide), length_append, length_singleton]
  rcases Nat.eq_zero_or_pos last.length with hzero | hpos
  · have hnil : init = [] := by
      by_contra hinitNe
      exact hne hinitNe (length_eq_zero_iff.mp hzero)
    rw [hnil, hzero, zero_ceilDiv]
    rfl
  · rw [ceilDiv_eq_one hpos hlast]
    exact (Nat.max_eq_left (Nat.le_add_left 1 _)).symm

/-- **The builder.**  An accepting sink receives the pages over the leaves of the stream, and the
root counts them. -/
lemma CatalogBuilder.exists_finish_pushAll {ε : Type} (C : Crypto) {builder : CatalogBuilder}
    (hnew : CatalogBuilder.new scope sec = .ok builder) {sink : PageSink ε}
    (hsink : ∀ pages page, sink pages page = .ok ()) {pieces : List (List UInt8)}
    (hbytes : pieces.flatten.length = bytes.val) (hle : bytes.val ≤ catalogMaxStreamBytes) :
    ∃ root pages, finish C sink (pushAll C sink (builder, []) pieces).2.1
        (pushAll C sink (builder, []) pieces).2.2 = .ok (root, pages) ∧
      root.pageOccurrences.val = pagesOver (denseLeaves bytes).val ∧
      pages.length = root.pageOccurrences.val := by
  obtain ⟨hcovers, -, hstart⟩ := progress_new (C := C) hnew
  have hlen : ([] ++ pieces.flatten).length ≤ catalogMaxStreamBytes := by
    rw [nil_append, hbytes]
    exact hle
  obtain ⟨-, hafter⟩ := pushAll_of_le hcovers hsink hstart (after_new hnew) pieces hlen
  obtain ⟨hprogress, hcount⟩ := hafter.progress hcovers hsink hstart hlen
  obtain ⟨root, pages, hfinish, -, h, -, chunks, hsized, hheight, ⟨-, hocc⟩, hchunks⟩ :=
    exists_finish hcovers hsink hprogress hcount hlen
  have hleaves : chunks.length = (denseLeaves bytes).val := by
    rw [hsized.length_eq, hchunks, nil_append, hbytes, val_denseLeaves]
  refine ⟨root, pages, hfinish, ?_, ?_⟩
  · rw [hocc, pagesOver, ← hleaves, hheight]
  · obtain ⟨raw, hraw, hstate⟩ := hafter
    have hbalanced : Balanced raw := by
      refine foldlM_balanced ?_ hraw
      simp only [new, bind_eq_ok, exists_unit, pure_eq_ok] at hnew
      obtain ⟨-, rfl⟩ := hnew
      simp [Balanced]
    rw [hstate] at hfinish
    exact finish_balanced (b := (setLen ([] ++ pieces.flatten).length raw).1) hbalanced hfinish

/-! ## Several trees -/

/-- Divided apart, two numbers round up once more. -/
lemma ceilDiv_add_le {d : ℕ} (hd : 0 < d) (m n : ℕ) : m ⌈/⌉ d + n ⌈/⌉ d ≤ (m + n) ⌈/⌉ d + 1 := by
  have hm := Nat.div_mul_le_self (m + d - 1) d
  have hn := Nat.div_mul_le_self (n + d - 1) d
  simp only [Nat.ceilDiv_eq_add_pred_div]
  rw [← Nat.sub_le_iff_le_add, Nat.le_div_iff_mul_le hd, Nat.sub_mul, Nat.add_mul]
  omega

variable {ns : List ℕ}

/-- A function that rounds up once more for every two parts rounds up once for every part. -/
lemma sum_le_of_rounding {f : ℕ → ℕ} (hf : ∀ m n, f m + f n ≤ f (m + n) + 1) (hne : ns ≠ []) :
    (ns.map f).sum ≤ f ns.sum + (ns.length - 1) := by
  induction ns with
  | nil => exact absurd rfl hne
  | cons n rest ih =>
    cases rest with
    | nil => simp
    | cons m rest =>
      have hrest := ih (cons_ne_nil m rest)
      have hone := hf n (m :: rest).sum
      rw [map_cons, sum_cons, sum_cons]
      simp only [length_cons] at hrest ⊢
      omega

/-- The row of height `i` that `dense_forest_pages` allows. -/
def forestNodes (rounding leaves : ℕ) : ℕ → ℕ
  | 0 => leaves
  | i + 1 => forestNodes rounding leaves i ⌈/⌉ catalogFanout + rounding

/-- The rows up to height `h` that it allows. -/
def forestUpTo (rounding leaves : ℕ) : ℕ → ℕ
  | 0 => leaves
  | h + 1 => forestUpTo rounding leaves h + forestNodes rounding leaves (h + 1)

variable {r : ℕ}

lemma forestNodes_mono {r' n n' : ℕ} (hr : r ≤ r') (hn : n ≤ n') (i : ℕ) :
    forestNodes r n i ≤ forestNodes r' n' i := by
  induction i with
  | zero => exact hn
  | succ i ih => exact Nat.add_le_add (ceilDiv_mono (by decide) ih) hr

lemma forestUpTo_mono {r' n n' : ℕ} (hr : r ≤ r') (hn : n ≤ n') (h : ℕ) :
    forestUpTo r n h ≤ forestUpTo r' n' h := by
  induction h with
  | zero => exact hn
  | succ h ih => exact Nat.add_le_add ih (forestNodes_mono hr hn (h + 1))

/-- **The rows.**  On every height the trees have together no more nodes than are allowed. -/
lemma sum_row_le {n : ℕ} (hlen : ns.length = r + 1) (hsum : ns.sum ≤ n) (i : ℕ) :
    (ns.map (· ⌈/⌉ catalogFanout ^ i)).sum ≤ forestNodes r n i := by
  induction i with
  | zero =>
    simp only [pow_zero, ceilDiv_one, map_id']
    exact hsum
  | succ i ih =>
    have hrow : ns.map (· ⌈/⌉ catalogFanout ^ (i + 1)) =
        (ns.map (· ⌈/⌉ catalogFanout ^ i)).map (· ⌈/⌉ catalogFanout) := by
      rw [map_map]
      refine map_congr_left fun m _ => ?_
      rw [Function.comp_apply, ceilDiv_ceilDiv (pow_pos (by decide) i) (by decide), pow_succ]
    have hne : ns.map (· ⌈/⌉ catalogFanout ^ i) ≠ [] := by
      rw [Ne, map_eq_nil_iff, ← length_eq_zero_iff]
      omega
    have hround := sum_le_of_rounding (ceilDiv_add_le (by decide : 0 < catalogFanout)) hne
    have hmono := ceilDiv_mono (by decide : 0 < catalogFanout) ih
    rw [length_map, hlen] at hround
    rw [hrow, forestNodes]
    omega

lemma sum_nodesUpTo_le {n : ℕ} (hlen : ns.length = r + 1) (hsum : ns.sum ≤ n) (h : ℕ) :
    (ns.map (nodesUpTo catalogFanout h)).sum ≤ forestUpTo r n h := by
  induction h with
  | zero =>
    have hid : ns.map (nodesUpTo catalogFanout 0) = ns := map_id' ns
    rw [hid]
    exact hsum
  | succ h ih =>
    have hrow := sum_row_le hlen hsum (h + 1)
    simp only [nodesUpTo, sum_map_add]
    exact Nat.add_le_add ih hrow

/-- The loop counts the rows, as long as they fit `u64`. -/
lemma denseForestRounds_eq_ok {rounding nodes pages count : U64} {n i : ℕ}
    (hnodes : nodes.val = forestNodes rounding.val n i)
    (hpages : pages.val = forestUpTo rounding.val n i) (m : ℕ) :
    denseForestRounds rounding m nodes pages = .ok count ↔
      count.val = forestUpTo rounding.val n (i + m) := by
  induction m generalizing i nodes pages with
  | zero =>
    rw [denseForestRounds, Except.ok.injEq, Nat.add_zero, ← hpages, Fin.ext_iff, eq_comm]
  | succ m ih =>
    have hdiv : (divCeil nodes catalogFanout).val =
        forestNodes rounding.val n i ⌈/⌉ catalogFanout := by
      rw [← hnodes]
      rfl
    simp only [denseForestRounds, bind_eq_ok, okOr_eq_ok, checkedAdd_eq_some, hdiv, hpages]
    have hshift : i + (m + 1) = i + 1 + m := by omega
    rw [hshift]
    constructor
    · rintro ⟨nodes', hnodes', pages', hpages', hrounds⟩
      exact (ih hnodes' (by rw [hpages', hnodes']; rfl)).mp hrounds
    · intro hcount
      -- The final count bounds every sum on the way.
      have hle : forestUpTo rounding.val n (i + 1) ≤ forestUpTo rounding.val n (i + 1 + m) := by
        clear ih hcount hshift hdiv
        induction m with
        | zero => exact le_rfl
        | succ m ihm => exact ihm.trans (Nat.le_add_right _ _)
      have hstep : forestUpTo rounding.val n (i + 1) =
          forestUpTo rounding.val n i + forestNodes rounding.val n (i + 1) := rfl
      have hlt := count.isLt
      exact ⟨⟨forestNodes rounding.val n (i + 1), by omega⟩, rfl,
        ⟨forestUpTo rounding.val n (i + 1), by omega⟩, rfl, (ih rfl rfl).mpr hcount⟩

/-- **A forest.**  What `dense_forest_pages` returns for at least one tree. -/
lemma denseForestPages_eq_ok {forests count : U64} (hforests : 0 < forests.val) :
    denseForestPages bytes forests = .ok count ↔
      count.val = forestUpTo (forests.val - 1) ((denseLeaves bytes).val + (forests.val - 1))
        catalogMaxHeight := by
  have hne : forests ≠ 0 := by
    rintro rfl
    exact absurd hforests (by decide)
  have hrounding : (forests - 1).val = forests.val - 1 :=
    Fin.sub_val_of_le (Fin.le_def.mpr hforests)
  simp only [denseForestPages, if_neg hne, bind_eq_ok, okOr_eq_ok, checkedAdd_eq_some, hrounding]
  constructor
  · rintro ⟨nodes, hnodes, hrounds⟩
    have hcount := (denseForestRounds_eq_ok (i := 0) rfl rfl catalogMaxHeight).mp hrounds
    rw [hnodes, hrounding, Nat.zero_add] at hcount
    exact hcount
  · intro hcount
    have hfirst : (denseLeaves bytes).val + (forests.val - 1) ≤ count.val := by
      rw [hcount]
      simp only [catalogMaxHeight, forestUpTo]
      omega
    refine ⟨⟨_, hfirst.trans_lt count.isLt⟩, rfl, ?_⟩
    refine (denseForestRounds_eq_ok (i := 0) (by rfl) (by rfl) catalogMaxHeight).mpr ?_
    rw [hrounding, Nat.zero_add]
    exact hcount

variable {lengths : List U64}

/-- The leaves of the trees, against the leaves of a stream of all their bytes. -/
lemma sum_denseLeaves_le (hne : lengths ≠ []) (hsum : (lengths.map Fin.val).sum ≤ bytes.val) :
    (lengths.map fun n => (denseLeaves n).val).sum ≤
      (denseLeaves bytes).val + (lengths.length - 1) := by
  have hround : ∀ m n : ℕ, max (m ⌈/⌉ catalogLeafBytes) 1 + max (n ⌈/⌉ catalogLeafBytes) 1 ≤
      max ((m + n) ⌈/⌉ catalogLeafBytes) 1 + 1 := by
    intro m n
    have hadd := ceilDiv_add_le (by decide : 0 < catalogLeafBytes) m n
    have hm := ceilDiv_mono (by decide : 0 < catalogLeafBytes) (Nat.le_add_right m n)
    have hn := ceilDiv_mono (by decide : 0 < catalogLeafBytes) (Nat.le_add_left n m)
    omega
  have hleaves : (lengths.map fun n => (denseLeaves n).val) =
      (lengths.map Fin.val).map fun m => max (m ⌈/⌉ catalogLeafBytes) 1 := by
    rw [map_map]
    exact map_congr_left fun n _ => val_denseLeaves n
  have hparts := sum_le_of_rounding hround (by rwa [Ne, map_eq_nil_iff] :
    lengths.map Fin.val ≠ [])
  have hwhole := ceilDiv_mono (by decide : 0 < catalogLeafBytes) hsum
  rw [length_map] at hparts
  rw [hleaves, val_denseLeaves]
  omega

lemma exists_mapM_densePages (hlengths : ∀ n ∈ lengths, n.val ≤ catalogMaxStreamBytes) :
    ∃ counts, lengths.mapM CodingDirectory.densePages = .ok counts ∧
      counts.map Fin.val = lengths.map fun n => pagesOver (denseLeaves n).val := by
  induction lengths with
  | nil => exact ⟨[], rfl, rfl⟩
  | cons n lengths ih =>
    obtain ⟨count, hcount, -, hval⟩ := exists_densePages (hlengths n mem_cons_self)
    obtain ⟨counts, hcounts, hvals⟩ := ih fun m hm => hlengths m (mem_cons_of_mem _ hm)
    refine ⟨count :: counts, ?_, by rw [map_cons, map_cons, hval, hvals]⟩
    rw [mapM_cons, hcount, ok_bind, hcounts, ok_bind]
    rfl

/-- **The forest bound.** -/
lemma sum_densePages_le {s k pages : U64} (hk : 1 ≤ k.val) (hlen : lengths.length = k.val)
    (hlengths : ∀ n ∈ lengths, n.val ≤ catalogMaxStreamBytes)
    (hsum : (lengths.map Fin.val).sum ≤ s.val) (hpages : denseForestPages s k = .ok pages) :
    (lengths.map fun n => pagesOver (denseLeaves n).val).sum ≤ pages.val := by
  have hne : lengths ≠ [] := by
    rintro rfl
    rw [length_nil] at hlen
    omega
  have hleaves := sum_denseLeaves_le hne hsum
  rw [hlen] at hleaves
  rw [(denseForestPages_eq_ok hk).mp hpages]
  calc (lengths.map fun n => pagesOver (denseLeaves n).val).sum
      ≤ (lengths.map fun n => nodesUpTo catalogFanout catalogMaxHeight (denseLeaves n).val).sum :=
        sum_le_sum fun n hn => nodesUpTo_mono (by decide)
          (clog_le_maxHeight (denseLeaves_le (hlengths n hn))) le_rfl
    _ = ((lengths.map fun n => (denseLeaves n).val).map
          (nodesUpTo catalogFanout catalogMaxHeight)).sum := by rw [map_map]; rfl
    _ ≤ _ := sum_nodesUpTo_le (by rw [length_map, hlen]; omega) hleaves _

/-- **Monotonicity.** -/
lemma denseForestPages_mono {s s' k k' pages' : U64} (hs : s ≤ s') (hk : k ≤ k')
    (hpages' : denseForestPages s' k' = .ok pages') (hpos : 1 ≤ k.val) :
    ∃ pages, denseForestPages s k = .ok pages ∧ pages ≤ pages' := by
  have hk' : k.val ≤ k'.val := hk
  have hleaves : (denseLeaves s).val ≤ (denseLeaves s').val := by
    have hmono := ceilDiv_mono (by decide : 0 < catalogLeafBytes) (Fin.le_def.mp hs)
    rw [val_denseLeaves, val_denseLeaves]
    omega
  have hle := forestUpTo_mono (by omega : k.val - 1 ≤ k'.val - 1)
    (by omega : (denseLeaves s).val + (k.val - 1) ≤ (denseLeaves s').val + (k'.val - 1))
    catalogMaxHeight
  rw [← (denseForestPages_eq_ok (hpos.trans hk')).mp hpages'] at hle
  exact ⟨⟨_, hle.trans_lt pages'.isLt⟩, (denseForestPages_eq_ok hpos).mpr rfl, hle⟩

/-- **Page forecasts.**  Within the bound on a stream both forecasts of one tree agree, and they are
what the root of any build of such a stream counts and what the sink received; a build with a sink
that refuses nothing does finish.  A forecast of a forest is at least the pages of any trees it is
for, and grows with the bytes and with the number of trees. -/
theorem page_forecasts_exact :
    (∀ n : U64, n.val ≤ catalogMaxStreamBytes → ∃ count : U64,
      CodingDirectory.densePages n = .ok count ∧ PackingDirectory.densePages n = .ok count ∧
      ∀ {ε : Type} (C : Crypto) (scope : CatalogScope) (sec : CatalogSection)
        (builder : CatalogBuilder), CatalogBuilder.new scope sec = .ok builder →
        ∀ (sink : PageSink ε) (pieces : List (List UInt8)), pieces.flatten.length = n.val →
        ((∀ pages page, sink pages page = .ok ()) → ∃ root pages,
          CatalogBuilder.finish C sink (CatalogBuilder.pushAll C sink (builder, []) pieces).2.1
            (CatalogBuilder.pushAll C sink (builder, []) pieces).2.2 = .ok (root, pages)) ∧
        ∀ root pages,
          CatalogBuilder.finish C sink (CatalogBuilder.pushAll C sink (builder, []) pieces).2.1
            (CatalogBuilder.pushAll C sink (builder, []) pieces).2.2 = .ok (root, pages) →
          root.pageOccurrences = count ∧ pages.length = count.val) ∧
    (∀ (s k : U64) (lengths : List U64), 1 ≤ k.val → lengths.length = k.val →
      (∀ n ∈ lengths, n.val ≤ catalogMaxStreamBytes) → (lengths.map Fin.val).sum ≤ s.val →
      ∀ pages, denseForestPages s k = .ok pages →
        ∃ counts, lengths.mapM CodingDirectory.densePages = .ok counts ∧
          (counts.map Fin.val).sum ≤ pages.val) ∧
    ∀ s s' k k' : U64, s ≤ s' → k ≤ k' → ∀ pages', denseForestPages s' k' = .ok pages' →
      (1 ≤ k.val → ∃ pages, denseForestPages s k = .ok pages) ∧
      ∀ pages, denseForestPages s k = .ok pages → pages ≤ pages' := by
  refine ⟨fun n hn => ?_, fun s k lengths hk hlen hlengths hsum pages hpages => ?_,
    fun s s' k k' hs hk pages' hpages' => ⟨fun hpos => ?_, fun pages hpages => ?_⟩⟩
  · obtain ⟨count, hcoding, hpacking, hcount⟩ := exists_densePages hn
    refine ⟨count, hcoding, hpacking, fun C scope sec builder hnew sink pieces hbytes =>
      ⟨fun hsink => ?_, fun root pages hfinish => ?_⟩⟩
    · obtain ⟨root, pages, hfinish, -⟩ :=
        exists_finish_pushAll C hnew hsink hbytes hn
      exact ⟨root, pages, hfinish⟩
    · -- A sink that let the builder finish refused nothing.
      have husable := (of_finish hfinish).1
      have haccept := finish_accepting hfinish
      rw [← pushAll_accepting pieces husable] at haccept
      obtain ⟨root', pages', hfinish', hocc, hlen⟩ :=
        exists_finish_pushAll C hnew accepting_eq_ok hbytes hn
      rw [haccept] at hfinish'
      cases hfinish'
      exact ⟨Fin.ext (hocc.trans hcount.symm), by rw [hlen, hocc, hcount]⟩
  · obtain ⟨counts, hcounts, hvals⟩ := exists_mapM_densePages hlengths
    exact ⟨counts, hcounts, by rw [hvals]; exact sum_densePages_le hk hlen hlengths hsum hpages⟩
  · obtain ⟨pages, hpages, -⟩ := denseForestPages_mono hs hk hpages' hpos
    exact ⟨pages, hpages⟩
  · rcases Nat.eq_zero_or_pos k.val with hzero | hpos
    · -- No tree: the forecast is zero.
      rw [denseForestPages, if_pos (Fin.ext hzero)] at hpages
      split_ifs at hpages
      · cases hpages
        exact Fin.zero_le _
      · cases hpages
    · obtain ⟨least, hleast, hle⟩ := denseForestPages_mono hs hk hpages' hpos
      rw [hpages] at hleast
      cases hleast
      exact hle

end MutualBackup

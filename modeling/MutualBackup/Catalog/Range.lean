import MutualBackup.Catalog.Tree
import MutualBackup.Framework.Stream

/-!
# Reading a range of a catalog stream

`CatalogRangeReader` of `catalog/range.rs` returns a byte range of a stream and fetches only the
pages it needs: the references that are pending carry the offset of their bytes in the stream, and
a child whose bytes do not meet the range is never pushed.  The lengths it skips by are those of
the children's references, which the page above them authenticates.

`Ranging` is what holds between two calls: the pending references are the nodes of the tree that
are still to be visited, and the rest of the range is what their leaves hold of it.  It is kept by
every call that succeeds, whatever the callback answers, as long as no page it accepts collides
with a page of the tree; and with a callback that returns the pages of the tree every call
succeeds.
-/

namespace MutualBackup

open Framework List

/-! ## The reader -/

/-- `CatalogRangeReader`.  The next reference is the head of `pending`, which the source pops from
the end of a vector. -/
structure CatalogRangeReader where
  scope : CatalogScope
  sec : CatalogSection
  start : U64
  stop : U64
  pending : List (CatalogPageRef × U64)
  remaining : U64
  failed : Bool
  deriving DecidableEq

/-- A fetch callback: an answer for a reference that may depend on everything before. -/
abbrev PageFetch (ε : Type) := List Emitted → CatalogPageRef → Except ε (List UInt8)

variable {reference : CatalogPageRef}

namespace CatalogRangeReader

/-- `CatalogRangeReader::new`. -/
def new (scope : CatalogScope) (sec : CatalogSection) (root : CatalogPageRef)
    (start stop : U64) : Outcome CatalogError CatalogRangeReader := do
  scope.validate sec
  root.validate
  reject (stop < start ∨ root.byteLen < stop) .bounds
  let remaining : U64 := Fin.ofNat _ (stop.val - start.val)
  pure ⟨scope, sec, start, stop, if remaining = 0 then [] else [(root, 0)], remaining,
    false⟩

section

variable (r : CatalogRangeReader)

/-- The loop over the children of an index page, from the last to the first, with the offset at
which the children so far begin. -/
def descend (stop : U64) :
    List CatalogPageRef → List (CatalogPageRef × U64) →
      Outcome CatalogError (U64 × List (CatalogPageRef × U64))
  | [], pending => .ok (stop, pending)
  | child :: children, pending => do
    let (stop, pending) ← descend stop children pending
    let start ← okOr (checkedSub stop child.byteLen) .bounds
    pure (start, if start < r.stop ∧ r.start < stop then (child, start) :: pending else pending)

/-- The arm of `next_inner` for an index page. -/
def openIndex (reference : CatalogPageRef) (offset : U64) (children : List CatalogPageRef)
    (pending : List (CatalogPageRef × U64)) : Outcome CatalogError CatalogRangeReader := do
  let stop ← okOr (checkedAdd offset reference.byteLen) .bounds
  let (start, pending) ← r.descend stop children pending
  reject (start ≠ offset) .invalidPage
  pure { r with pending }

/-- The arm of `next_inner` for a leaf. -/
def takeLeaf (reference : CatalogPageRef) (offset : U64) (bytes : List UInt8)
    (pending : List (CatalogPageRef × U64)) :
    Outcome CatalogError (List UInt8 × CatalogRangeReader) := do
  let start := r.start.val - offset.val
  let ahead ← uncheckedSub r.stop offset
  let stop := min ahead.val reference.byteLen.val
  reject (stop ≤ start ∨ bytes.length < stop) .invalidPage
  let count := stop - start
  let remaining ← okOr (checkedSub r.remaining (Fin.ofNat _ count)) .bounds
  reject (pending = [] ∧ remaining ≠ 0) .invalidPage
  pure ((bytes.drop start).take count, { r with pending, remaining })

end

/-- What bounds the loop of `next_inner`: an index page outweighs its children. -/
def weight (pending : List (CatalogPageRef × U64)) : ℕ :=
  (pending.map fun p => (catalogFanout + 1) ^ p.1.height.val).sum

lemma weight_descend {r : CatalogRangeReader} {stop start : U64} {children : List CatalogPageRef}
    {pending pending' : List (CatalogPageRef × U64)}
    (h : r.descend stop children pending = .ok (start, pending')) :
    weight pending' ≤
      (children.map fun c => (catalogFanout + 1) ^ c.height.val).sum + weight pending := by
  induction children generalizing start pending' with
  | nil =>
    cases h
    rw [map_nil, sum_nil, Nat.zero_add]
  | cons child children ih =>
    simp only [descend, bind_eq_ok, okOr_eq_ok, pure_eq_ok, Prod.exists, Prod.mk.injEq] at h
    obtain ⟨stop', mid, hmid, start', -, -, rfl⟩ := h
    have hle := ih hmid
    rw [map_cons, sum_cons]
    split
    · rw [weight, map_cons, sum_cons, ← weight]
      simp only
      omega
    · omega

/-- The children of a page that verified weigh less than its reference. -/
lemma weight_openIndex {C : Crypto} {p : Page} {bytes : List UInt8} {children : List CatalogPageRef}
    (hencode : p.encode C = .ok (reference, bytes)) (hbody : p.body = .index children)
    {r next : CatalogRangeReader} {offset : U64} {pending : List (CatalogPageRef × U64)}
    (hopen : r.openIndex reference offset children pending = .ok next) :
    weight next.pending < weight ((reference, offset) :: pending) := by
  simp only [openIndex, bind_eq_ok, okOr_eq_ok, exists_unit, reject_eq_ok, pure_eq_ok,
    Prod.exists] at hopen
  obtain ⟨stop, -, start, pending', hdescend, -, rfl⟩ := hopen
  obtain ⟨hcounts, -, -, -, -, hheight⟩ := Page.encode_eq_ok.mp hencode
  obtain ⟨-, hpos, -, hlen, hchildren, -⟩ := (Page.counts_index_eq_ok hbody).mp hcounts
  obtain ⟨k, hk⟩ : ∃ k, reference.height.val = k + 1 := by
    rw [hheight]
    exact Nat.exists_eq_succ_of_ne_zero hpos.ne'
  have hall : ∀ c ∈ children, (catalogFanout + 1) ^ c.height.val = (catalogFanout + 1) ^ k := by
    intro c hc
    have hsucc := (hchildren c hc).height_succ
    rw [← hheight, hk] at hsucc
    rw [Nat.add_right_cancel hsucc]
  have hsum : (children.map fun c => (catalogFanout + 1) ^ c.height.val).sum ≤
      catalogFanout * (catalogFanout + 1) ^ k := by
    rw [map_congr_left hall, map_const', sum_replicate_nat]
    exact Nat.mul_le_mul_right _ hlen
  have hpow : 0 < (catalogFanout + 1) ^ k := pow_pos (by decide) k
  have hweight : weight ((reference, offset) :: pending) =
      (catalogFanout + 1) * (catalogFanout + 1) ^ k + weight pending := by
    rw [weight, map_cons, sum_cons, ← weight, hk, pow_succ, Nat.mul_comm]
  have hle := weight_descend hdescend
  rw [hweight, Nat.add_mul, Nat.one_mul]
  simp only
  omega

variable {ε : Type}

set_option linter.unusedVariables false in
/-- `next_inner`. -/
def nextInner (C : Crypto) (fetch : PageFetch ε) (r : CatalogRangeReader) (log : List Emitted) :
    StreamOutcome ε (Option (List UInt8) × CatalogRangeReader) × List Emitted :=
  match hpending : r.pending with
  | [] => (do reject (r.remaining ≠ 0) (.catalog .invalidPage); pure (none, r), log)
  | (reference, offset) :: pending =>
    match hfetch : fetchPage C r.scope r.sec fetch id reference log with
    | (.error e, log) => (.error e, log)
    | (.ok page, log) =>
      match hbody : page.body with
      | .index children =>
        match hopen : r.openIndex reference offset children pending with
        | .ok next => nextInner C fetch next log
        | .error e => (mapErr .catalog (.error e), log)
      | .leaf bytes =>
        (do let (chunk, r) ← mapErr .catalog (r.takeLeaf reference offset bytes pending)
            pure (some chunk, r), log)
  termination_by weight r.pending
  decreasing_by
    obtain ⟨bytes, -, -, hencode, -⟩ := fetchPage_eq_ok.mp hfetch
    rw [hpending]
    exact weight_openIndex hencode hbody hopen

end CatalogRangeReader

/-- A range reader and the calls its callback has received. -/
structure RangeSession where
  reader : CatalogRangeReader
  log : List Emitted
  deriving DecidableEq

/-- `next_chunk`.  A reader that has failed answers every later call with `Failed`, so the rest of
its fields is as before the call. -/
def CatalogRangeReader.nextChunk {ε : Type} (C : Crypto) (fetch : PageFetch ε) (s : RangeSession) :
    StreamOutcome ε (Option (List UInt8)) × RangeSession :=
  if s.reader.failed then (fail (.catalog .failed), s)
  else
    match CatalogRangeReader.nextInner C fetch s.reader s.log with
    | (.ok (chunk, reader), log) => (.ok chunk, ⟨reader, log⟩)
    | (.error e, log) => (.error e, ⟨{ s.reader with failed := true }, log⟩)

/-! ## What one call does -/

variable {h : ℕ}

namespace CatalogRangeReader

variable {ε : Type} {C : Crypto} {fetch : PageFetch ε} {r : CatalogRangeReader}
  {log log' : List Emitted}

lemma nextInner_nil (hpending : r.pending = []) :
    nextInner C fetch r log =
      (do reject (r.remaining ≠ 0) (.catalog .invalidPage); pure (none, r), log) := by
  rw [nextInner]
  split
  · rfl
  · rename_i hcons
    rw [hpending] at hcons
    cases hcons

/-- How a call goes on once it has verified a page. -/
def resume (C : Crypto) (fetch : PageFetch ε) (r : CatalogRangeReader) (reference : CatalogPageRef)
    (offset : U64) (pending : List (CatalogPageRef × U64)) (body : PageBody) (log : List Emitted) :
    StreamOutcome ε (Option (List UInt8) × CatalogRangeReader) × List Emitted :=
  match body with
  | .index children =>
    match r.openIndex reference offset children pending with
    | .ok next => nextInner C fetch next log
    | .error e => (mapErr .catalog (.error e), log)
  | .leaf bytes =>
    (do let (chunk, r) ← mapErr .catalog (r.takeLeaf reference offset bytes pending)
        pure (some chunk, r), log)

lemma nextInner_cons {offset : U64} {pending : List (CatalogPageRef × U64)}
    (hpending : r.pending = (reference, offset) :: pending) :
    nextInner C fetch r log =
      match fetchPage C r.scope r.sec fetch id reference log with
      | (.error e, log) => (.error e, log)
      | (.ok page, log) => resume C fetch r reference offset pending page.body log := by
  rw [nextInner]
  split
  · rename_i hnil
    rw [hpending] at hnil
    cases hnil
  · rename_i hcons
    rw [hpending] at hcons
    cases hcons
    cases hfetch : fetchPage C r.scope r.sec fetch id reference log with
    | mk res log =>
      cases res with
      | error e => rfl
      | ok page =>
        simp only [resume]
        cases hbody : page.body with
        | leaf bytes => rfl
        | index children =>
          simp only
          cases hopen : r.openIndex reference offset children pending with
          | ok next => rfl
          | error e => rfl

variable {offset : U64} {pending : List (CatalogPageRef × U64)}
  {res : StreamOutcome ε (Option (List UInt8) × CatalogRangeReader)}

/-- Past a page the log grows, if it does in the calls for its children. -/
lemma resume_log {body : PageBody}
    (hlater : ∀ {children next}, body = .index children →
      r.openIndex reference offset children pending = .ok next →
      nextInner C fetch next log = (res, log') → log <+: log')
    (hrun : resume C fetch r reference offset pending body log = (res, log')) : log <+: log' := by
  cases body with
  | leaf data =>
    cases hrun
    exact prefix_rfl
  | index children =>
    simp only [resume] at hrun
    cases hopen : r.openIndex reference offset children pending with
    | error e =>
      rw [hopen] at hrun
      cases hrun
      exact prefix_rfl
    | ok next =>
      rw [hopen] at hrun
      exact hlater rfl hopen hrun

/-- A call adds to the log. -/
lemma nextInner_log (hrun : nextInner C fetch r log = (res, log')) : log <+: log' := by
  induction hn : weight r.pending using Nat.strong_induction_on generalizing r log with
  | _ n ih =>
  cases hpending : r.pending with
  | nil =>
    rw [nextInner_nil hpending] at hrun
    cases hrun
    exact prefix_rfl
  | cons p pending =>
    obtain ⟨reference, offset⟩ := p
    rw [nextInner_cons hpending] at hrun
    rcases hfetch : fetchPage C r.scope r.sec fetch id reference log with ⟨e | page, mid⟩
    · rw [hfetch] at hrun
      cases hrun
      rcases fetchPage_cases hfetch with ⟨_, -, rfl⟩ | ⟨bytes, -, rfl, -⟩
      · exact prefix_rfl
      · exact prefix_append _ _
    · rw [hfetch] at hrun
      obtain ⟨bytes, -, rfl, hencode, -, -⟩ := fetchPage_eq_ok.mp hfetch
      refine (prefix_append log [(reference, bytes)]).trans (resume_log ?_ hrun)
      intro children next hbody hopen hnext
      have hweight := weight_openIndex hencode hbody hopen
      rw [← hpending, hn] at hweight
      exact ih _ hweight hnext rfl

/-- The loop over the children pushes those that meet the range, each with its offset. -/
lemma descend_eq_ok {ts : List (PageTree h)} {offset : ℕ} {stop : U64}
    (pending : List (CatalogPageRef × U64)) (hlen : ∀ t ∈ ts, t.label.byteLen.val = t.size)
    (hstop : stop.val = offset + (ts.map Rope.size).sum) :
    ∃ start : U64, start.val = offset ∧ r.descend stop (ts.map Rope.label) pending = .ok (start,
        ((placed Rope.size offset ts).filter fun p =>
          p.1 < r.stop.val ∧ r.start.val < p.1 + p.2.size).map
            (fun p => (p.2.label, Fin.ofNat _ p.1)) ++ pending) := by
  induction ts generalizing offset with
  | nil =>
    rw [map_nil, sum_nil, Nat.add_zero] at hstop
    exact ⟨stop, hstop, rfl⟩
  | cons t ts ih =>
    rw [map_cons, sum_cons, ← Nat.add_assoc] at hstop
    obtain ⟨mid, hmid, hdescend⟩ := ih (fun c hc => hlen c (mem_cons_of_mem _ hc)) hstop
    have hsize := hlen t mem_cons_self
    have hlt : offset < 2 ^ 64 := by
      have := mid.isLt
      omega
    have hsub : checkedSub mid t.label.byteLen = some ⟨offset, hlt⟩ := by
      rw [checkedSub_eq_some]
      exact ⟨by omega, by simp only; omega⟩
    have hofNat : (Fin.ofNat (2 ^ 64) offset : U64) = ⟨offset, hlt⟩ := by
      rw [Fin.ext_iff, Fin.val_ofNat, Nat.mod_eq_of_lt hlt]
    refine ⟨⟨offset, hlt⟩, rfl, ?_⟩
    rw [map_cons, descend, hdescend, ok_bind]
    simp only [hsub, okOr, ok_bind]
    rw [placed, filter_cons]
    have hmeets : ((⟨offset, hlt⟩ : U64) < r.stop ∧ r.start < mid) ↔
        (offset < r.stop.val ∧ r.start.val < offset + t.size) := by
      rw [Fin.lt_def, Fin.lt_def, hmid]
    by_cases hin : offset < r.stop.val ∧ r.start.val < offset + t.size
    · rw [if_pos (hmeets.mpr hin), decide_eq_true hin, if_pos rfl, map_cons, hofNat]
      rfl
    · rw [if_neg (mt hmeets.mp hin), decide_eq_false hin, if_neg Bool.false_ne_true]
      rfl

end CatalogRangeReader

open CatalogRangeReader

/-! ## In the middle of a range -/

section Ranging

variable (C : Crypto) (scope : CatalogScope) (sec : CatalogSection) (pages : List Emitted)

/-- A pending reference is the root of a tree that meets the range, with the bytes of the range the
tree holds and the pages that will be fetched for them. -/
def Pends (a z : ℕ) (p : CatalogPageRef × U64) (part : List UInt8 × List CatalogPageRef) : Prop :=
  ∃ (h : ℕ) (t : PageTree h), Stored C scope sec pages t ∧ t.label = p.1 ∧
    (p.2.val < z ∧ a < p.2.val + t.size) ∧ a < z ∧ 0 < t.size ∧
    p.2.val + t.size ≤ catalogMaxStreamBytes ∧
    part = (clip a z p.2.val t.content, (t.spansIn a z p.2.val).map Span.label)

/-- The reader is in the middle of a range: `rest` is what it has not returned, and `ahead` are the
pages it has not fetched. -/
structure Ranging (r : CatalogRangeReader) (rest : List UInt8) (ahead : List CatalogPageRef) :
    Prop where
  scope_eq : r.scope = scope
  section_eq : r.sec = sec
  failed_eq : r.failed = false
  holds : ∃ parts, List.Forall₂ (Pends C scope sec pages r.start.val r.stop.val)
    r.pending parts ∧ parts.flatMap Prod.fst = rest ∧ parts.flatMap Prod.snd = ahead
  remaining : r.remaining.val = rest.length

end Ranging

section Steps

variable {ε : Type} {C : Crypto} {scope : CatalogScope} {sec : CatalogSection}
  {pages : List Emitted} {fetch : PageFetch ε} {r : CatalogRangeReader} {rest : List UInt8}
  {ahead : List CatalogPageRef} {pending : List (CatalogPageRef × U64)} {offset : U64}

variable {l : CatalogPageRef}

/-- Below an index page, the children that meet the range are pending. -/
lemma pends_children {a z : ℕ} {children : List (PageTree h)} (haz : a < z)
    (hs : Stored C scope sec pages (Rope.node l children))
    (hbound : offset.val + (Rope.node l children).size ≤ catalogMaxStreamBytes) :
    Forall₂ (Pends C scope sec pages a z)
      (((placed Rope.size offset.val children).filter fun p => p.1 < z ∧ a < p.1 + p.2.size).map
        fun p => (p.2.label, Fin.ofNat _ p.1))
      (((placed Rope.size offset.val children).filter fun p => p.1 < z ∧ a < p.1 + p.2.size).map
        fun p => (clip a z p.1 p.2.content, (p.2.spansIn a z p.1).map Span.label)) := by
  rw [forall₂_map_left_iff, forall₂_map_right_iff, forall₂_same]
  intro p hp
  obtain ⟨hplaced, hmeets⟩ := mem_filter.mp hp
  obtain ⟨hlo, hhi⟩ := bounds_of_mem_placed hplaced
  rw [← Rope.size_node l children] at hhi
  have hmax : catalogMaxStreamBytes = 17179869184 := rfl
  have hofNat : (Fin.ofNat (2 ^ 64) p.1 : U64).val = p.1 := by
    rw [Fin.val_ofNat]
    exact Nat.mod_eq_of_lt (by omega)
  have hmem := mem_of_mem_placed hplaced
  refine ⟨h, p.2, (stored_node.mp hs).2 p.2 hmem, rfl, ?_⟩
  simp only [hofNat]
  exact ⟨of_decide_eq_true hmeets, haz, hs.size_pos hmem, by omega, trivial⟩

section

variable (hranging : Ranging C scope sec pages r rest ahead)

include hranging

/-- Past an index page, the rest of the range is the same and the page is no longer ahead. -/
lemma Ranging.index {children : List (PageTree h)}
    (hs : Stored C scope sec pages (Rope.node l children))
    (hmeets : offset.val < r.stop.val ∧ r.start.val < offset.val + (Rope.node l children).size)
    (haz : r.start.val < r.stop.val) (hpos : 0 < (Rope.node l children).size)
    (hbound : offset.val + (Rope.node l children).size ≤ catalogMaxStreamBytes)
    {parts : List (List UInt8 × List CatalogPageRef)}
    (hparts : Forall₂ (Pends C scope sec pages r.start.val r.stop.val) pending parts)
    (hrest : clip r.start.val r.stop.val offset.val (Rope.node l children).content ++
      parts.flatMap Prod.fst = rest)
    (hahead : ((Rope.node l children).spansIn r.start.val r.stop.val offset.val).map Span.label ++
      parts.flatMap Prod.snd = ahead) :
    ∃ next ahead', r.openIndex l offset (children.map Rope.label) pending = .ok next ∧
      ahead = l :: ahead' ∧ Ranging C scope sec pages next rest ahead' := by
  have hmax : catalogMaxStreamBytes = 17179869184 := rfl
  have hlen : ∀ t ∈ children, t.label.byteLen.val = t.size := fun t ht =>
    ((stored_node.mp hs).2 t ht).byteLen
  have hbyteLen : l.byteLen.val = (Rope.node l children).size := hs.byteLen
  have hlt : offset.val + l.byteLen.val < 2 ^ 64 := by omega
  have hadd : checkedAdd offset l.byteLen = some ⟨offset.val + l.byteLen.val, hlt⟩ :=
    checkedAdd_eq_some.mpr rfl
  have hstop : (⟨offset.val + l.byteLen.val, hlt⟩ : U64).val =
      offset.val + (children.map Rope.size).sum := by
    rw [← Rope.size_node l, ← hbyteLen]
  obtain ⟨start, hstart, hdescend⟩ := descend_eq_ok (r := r) pending hlen hstop
  obtain rfl : start = offset := Fin.ext hstart
  rw [Rope.spansIn_node (by omega), map_cons, cons_append] at hahead
  have hopen : r.openIndex l start (children.map Rope.label) pending = .ok
      { r with
        pending := ((placed Rope.size start.val children).filter fun p =>
          p.1 < r.stop.val ∧ r.start.val < p.1 + p.2.size).map
            (fun p => (p.2.label, Fin.ofNat _ p.1)) ++ pending } := by
    rw [openIndex, hadd]
    simp only [okOr, ok_bind, hdescend, reject, ne_eq, not_true_eq_false, if_false]
    rfl
  refine ⟨_, _, hopen, hahead.symm, ?_⟩
  exact
    { hranging with
      holds := by
        refine ⟨_, rel_append (pends_children haz hs hbound) hparts, ?_, ?_⟩
        · rw [flatMap_append, flatMap_map, Rope.flatMap_filter_meets, ← hrest,
            Rope.content_node, clip_flatMap]
          · rfl
          · intro p _ hout
            refine clip_eq_nil ?_
            rw [not_and_or, not_lt, not_lt] at hout
            exact hout
        · rw [flatMap_append, flatMap_map, Rope.flatMap_filter_meets, map_flatMap]
          intro p _ hout
          rw [Rope.spansIn_eq_nil hout, map_nil] }

/-- Past a leaf, its part of the range has been returned. -/
lemma Ranging.leaf {piece : List UInt8} (hs : Stored C scope sec pages (Rope.leaf l piece))
    (hmeets : offset.val < r.stop.val ∧ r.start.val < offset.val + (Rope.leaf l piece).size)
    (haz : r.start.val < r.stop.val) (hpos : 0 < (Rope.leaf l piece).size)
    {parts : List (List UInt8 × List CatalogPageRef)}
    (hparts : Forall₂ (Pends C scope sec pages r.start.val r.stop.val) pending parts)
    (hrest : clip r.start.val r.stop.val offset.val piece ++ parts.flatMap Prod.fst = rest)
    (hahead : ((Rope.leaf l piece).spansIn r.start.val r.stop.val offset.val).map Span.label ++
      parts.flatMap Prod.snd = ahead) :
    ∃ chunk next rest' ahead', r.takeLeaf l offset piece pending = .ok (chunk, next) ∧
      chunk ≠ [] ∧ rest = chunk ++ rest' ∧ ahead = l :: ahead' ∧
      Ranging C scope sec pages next rest' ahead' := by
  obtain ⟨hle, hbyteLen, -, -⟩ := hs.counts_leaf
  have hsize : (Rope.leaf l piece).size = piece.length := rfl
  rw [hsize] at hmeets hpos
  have hleaf : catalogLeafBytes = 61440 := rfl
  rw [Rope.spansIn_leaf (by omega)] at hahead
  have hremaining := hranging.remaining
  have hlength := length_clip r.start.val r.stop.val offset.val piece
  rw [← hrest, length_append] at hremaining
  -- The bytes between the two places of the leaf are its part of the range.
  have hslice : (piece.drop (r.start.val - offset.val)).take
      (min (r.stop.val - offset.val) piece.length - (r.start.val - offset.val)) =
      clip r.start.val r.stop.val offset.val piece := by
    rw [clip, drop_take, take_eq_take_iff, length_drop]
    omega
  have hcount : (Fin.ofNat (2 ^ 64) (min (r.stop.val - offset.val) piece.length -
      (r.start.val - offset.val)) : U64).val =
      (clip r.start.val r.stop.val offset.val piece).length := by
    rw [hlength, Fin.val_ofNat]
    exact Nat.mod_eq_of_lt (by omega)
  have hstop : (uncheckedSub r.stop offset : Outcome CatalogError U64) =
      .ok ⟨r.stop.val - offset.val, (Nat.sub_le _ _).trans_lt r.stop.isLt⟩ :=
    uncheckedSub_eq_ok.mpr ⟨hmeets.1.le, rfl⟩
  have hlt : (parts.flatMap Prod.fst).length < 2 ^ 64 := by
    have := r.remaining.isLt
    omega
  have hleft : checkedSub r.remaining (Fin.ofNat (2 ^ 64)
      (min (r.stop.val - offset.val) piece.length - (r.start.val - offset.val))) =
      some ⟨(parts.flatMap Prod.fst).length, hlt⟩ := by
    rw [checkedSub_eq_some, hcount]
    exact ⟨by omega, by simp only; omega⟩
  have hlast : ¬ (pending = [] ∧ (⟨(parts.flatMap Prod.fst).length, hlt⟩ : U64) ≠ 0) := by
    rintro ⟨rfl, hne⟩
    cases hparts
    exact hne rfl
  have htake : r.takeLeaf l offset piece pending =
      .ok (clip r.start.val r.stop.val offset.val piece,
        { r with pending, remaining := ⟨(parts.flatMap Prod.fst).length, hlt⟩ }) := by
    simp only [takeLeaf, hstop, ok_bind, hbyteLen, reject, hleft, okOr]
    rw [if_neg (by omega), ok_bind, if_neg hlast, ok_bind, hslice]
    rfl
  refine ⟨_, _, _, _, htake, ?_, hrest.symm, hahead.symm, ?_⟩
  · rw [← length_pos_iff, hlength]
    omega
  · exact { hranging with holds := ⟨parts, hparts, rfl, rfl⟩, remaining := rfl }

/-- Where a call stands after it has verified the page of the next pending tree: it goes on with
less to do, or it has its chunk. -/
lemma Ranging.resume (fetch : PageFetch ε) (hpending : r.pending = (l, offset) :: pending) :
    ∃ (h : ℕ) (t : PageTree h) (ahead' : List CatalogPageRef),
      Stored C scope sec pages t ∧ t.label = l ∧ ahead = l :: ahead' ∧
      ((∃ next, weight next.pending < weight r.pending ∧
          Ranging C scope sec pages next rest ahead' ∧
          ∀ log, resume C fetch r l offset pending (bodyOf t) log = nextInner C fetch next log) ∨
        ∃ chunk next rest', chunk ≠ [] ∧ rest = chunk ++ rest' ∧
          Ranging C scope sec pages next rest' ahead' ∧
          ∀ log, resume C fetch r l offset pending (bodyOf t) log =
            (.ok (some chunk, next), log)) := by
  obtain ⟨parts, hparts, hrest, hahead⟩ := hranging.holds
  rw [hpending] at hparts
  obtain ⟨part, others, ⟨h, t, hs, hlabel, hmeets, haz, hpos, hbound, rfl⟩, hothers, rfl⟩ :=
    forall₂_cons_left_iff.mp hparts
  rw [flatMap_cons] at hrest hahead
  simp only at hlabel hmeets hbound hrest hahead
  cases h with
  | zero =>
    obtain ⟨label, piece⟩ := t
    obtain rfl : label = l := hlabel
    obtain ⟨chunk, next, rest', ahead', htake, hne, hsplit, hfirst, hnext⟩ :=
      hranging.leaf hs hmeets haz hpos hothers hrest hahead
    refine ⟨0, ⟨label, piece⟩, ahead', hs, rfl, hfirst,
      .inr ⟨chunk, next, rest', hne, hsplit, hnext, fun log => ?_⟩⟩
    show (do let (chunk, r) ← mapErr _ (r.takeLeaf label offset piece pending)
             pure (some chunk, r), log) = _
    rw [htake]
    rfl
  | succ h =>
    obtain ⟨label, children⟩ := t
    obtain rfl : label = l := hlabel
    obtain ⟨next, ahead', hopen, hfirst, hnext⟩ :=
      hranging.index hs hmeets haz hpos hbound hothers hrest hahead
    obtain ⟨bytes, hencode, -⟩ := hs.page
    refine ⟨h + 1, ⟨label, children⟩, ahead', hs, rfl, hfirst,
      .inl ⟨next, ?_, hnext, fun log => ?_⟩⟩
    · rw [hpending]
      exact weight_openIndex hencode rfl hopen
    · show (match r.openIndex label offset (children.map Rope.label) pending with
        | .ok next => nextInner C fetch next log
        | .error e => (mapErr .catalog (.error e), log)) = _
      rw [hopen]

/-- What a call may leave behind: the range is at its end, or a chunk of it was returned. -/
def Continues (C : Crypto) (scope : CatalogScope) (sec : CatalogSection)
    (pages : List Emitted) (rest : List UInt8) (ahead : List CatalogPageRef)
    (out : Option (List UInt8) × CatalogRangeReader) : Prop :=
  ∃ rest', rest = out.1.getD [] ++ rest' ∧ (out.1 = none → rest = [] ∧ ahead = []) ∧
    out.1 ≠ some [] ∧ Ranging C scope sec pages out.2 rest' ahead

/-- With nothing pending the range is at its end. -/
lemma Ranging.nextInner_nil (fetch : PageFetch ε) (hnil : r.pending = []) (log : List Emitted) :
    nextInner C fetch r log = (.ok (none, r), log) ∧ rest = [] ∧ ahead = [] := by
  obtain ⟨parts, hparts, hrest, hahead⟩ := hranging.holds
  rw [hnil] at hparts
  cases hparts
  have hzero : r.remaining = 0 := by
    rw [Fin.ext_iff, hranging.remaining, ← hrest]
    rfl
  rw [CatalogRangeReader.nextInner_nil hnil, reject, if_neg (not_not.mpr hzero)]
  exact ⟨rfl, hrest.symm, hahead.symm⟩

/-- The callback returns the pages of the tree. -/
def Fetches (fetch : PageFetch ε) (pages : List Emitted) : Prop :=
  ∀ log, ∀ page ∈ pages, fetch log page.1 = .ok page.2

omit hranging in
/-- With the pages of the tree, the page of a tree is fetched. -/
lemma succeeds_fetchPage (hfetches : Fetches fetch pages) (hs : Stored C scope sec pages t)
    (log : List Emitted) : Succeeds (fetchPage C scope sec fetch id t.label log).1 := by
  obtain ⟨bytes, hencode, hmem⟩ := hs.page
  have hok : fetchPage C scope sec fetch id t.label log =
      (.ok (pageOf scope sec t), log ++ [(t.label, bytes)]) :=
    fetchPage_eq_ok.mpr ⟨bytes, hfetches log _ hmem, rfl, hencode, rfl, rfl⟩
  rw [hok]
  exact ⟨_, rfl⟩

omit hranging in
/-- A page that is accepted for a tree is the page of the tree. -/
lemma page_of_fetchPage {mid log log' : List Emitted} {page : Page}
    (hs : Stored C scope sec pages t) (hmid : mid <+: log')
    (hpages : Fetches fetch pages ∨ CollisionFree C pages log')
    (hfetch : fetchPage C r.scope r.sec fetch id t.label log = (.ok page, mid)) :
    page = pageOf scope sec t := by
  obtain ⟨bytes, hbytes, rfl, hencode, -, -⟩ := fetchPage_eq_ok.mp hfetch
  refine hs.eq_of_encode hencode fun q hq hlabel => ?_
  rcases hpages with hfetches | hfree
  · have hsame := hfetches log q hq
    rw [hlabel] at hsame
    exact fun _ => Except.ok.inj (hsame.symm.trans hbytes)
  · exact hfree q hq (t.label, bytes) (hmid.subset (by simp))

/-- **The step.**  Whatever a call accepted are the pages of the tree, so if it succeeds it
continues the range; and with the pages of the tree it succeeds. -/
lemma Ranging.step {log log' : List Emitted}
    {res : StreamOutcome ε (Option (List UInt8) × CatalogRangeReader)}
    (hrun : nextInner C fetch r log = (res, log'))
    (hpages : Fetches fetch pages ∨ CollisionFree C pages log') :
    ∃ fetched ahead', log' = log ++ fetched ∧ ahead = fetched.map Prod.fst ++ ahead' ∧
      (∀ out, res = .ok out → Continues C scope sec pages rest ahead' out) ∧
      (Fetches fetch pages → Succeeds res) := by
  induction hn : weight r.pending using Nat.strong_induction_on
    generalizing r ahead log with
  | _ n ih =>
  cases hpending : r.pending with
  | nil =>
    obtain ⟨hend, rfl, rfl⟩ := hranging.nextInner_nil fetch hpending log
    rw [hend] at hrun
    cases hrun
    refine ⟨[], [], (append_nil _).symm, rfl, ?_, fun _ => ⟨_, rfl⟩⟩
    rintro out ⟨⟩
    exact ⟨[], rfl, fun _ => ⟨rfl, rfl⟩, by simp, hranging⟩
  | cons p pending =>
    obtain ⟨l, offset⟩ := p
    obtain ⟨h, t, ahead', hs, rfl, rfl, hresume⟩ := hranging.resume fetch hpending
    rw [nextInner_cons hpending] at hrun
    rcases hfetch : fetchPage C r.scope r.sec fetch id t.label log with ⟨e | page, mid⟩
    · have hfails : ¬ Fetches fetch pages := by
        intro hfetches
        obtain ⟨page, hok⟩ := succeeds_fetchPage hfetches hs log
        rw [hranging.scope_eq, hranging.section_eq] at hfetch
        rw [hfetch] at hok
        cases hok
      rw [hfetch] at hrun
      cases hrun
      rcases fetchPage_cases hfetch with ⟨_, -, rfl⟩ | ⟨bytes, -, rfl, -⟩
      · exact ⟨[], _, (append_nil _).symm, rfl, by rintro _ ⟨⟩, fun h => absurd h hfails⟩
      · exact ⟨[(t.label, bytes)], ahead', rfl, rfl, by rintro _ ⟨⟩, fun h => absurd h hfails⟩
    · rw [hfetch] at hrun
      obtain rfl := page_of_fetchPage hs (resume_log (fun _ _ => nextInner_log) hrun) hpages hfetch
      obtain ⟨bytes, -, rfl, -⟩ := fetchPage_eq_ok.mp hfetch
      rcases hresume with ⟨next, hweight, hnext, hlater⟩ |
        ⟨chunk, next, rest', hne, rfl, hnext, hlater⟩
      · have hrun' : nextInner C fetch next (log ++ [(t.label, bytes)]) =
            (res, log') := (hlater _).symm.trans hrun
        obtain ⟨fetched, ahead'', rfl, rfl, hdone⟩ := ih _ (hn ▸ hweight) hnext hrun' rfl
        refine ⟨(t.label, bytes) :: fetched, ahead'', ?_, rfl, hdone⟩
        rw [append_assoc, singleton_append]
      · have hrun' : (.ok (some chunk, next), log ++ [(t.label, bytes)]) = (res, log') :=
          (hlater _).symm.trans hrun
        cases hrun'
        refine ⟨[(t.label, bytes)], ahead', rfl, rfl, ?_, fun _ => ⟨_, rfl⟩⟩
        rintro out ⟨⟩
        exact ⟨rest', rfl, by rintro ⟨⟩, by simpa using hne, hnext⟩

end

variable {s t : RangeSession} {chunks : List (List UInt8)}

lemma nextChunk_eq_ok {s' : RangeSession} {chunk : Option (List UInt8)} :
    nextChunk C fetch s = (.ok chunk, s') ↔ s.reader.failed = false ∧
      nextInner C fetch s.reader s.log = (.ok (chunk, s'.reader), s'.log) := by
  unfold nextChunk
  cases s.reader.failed with
  | true => simp [fail]
  | false =>
    rcases nextInner C fetch s.reader s.log with ⟨e | ⟨got, reader⟩, log⟩
    · simp
    · obtain ⟨reader', log'⟩ := s'
      simp [and_assoc]

lemma pulled_log (hrun : Pulled (nextChunk C fetch) s chunks t) : s.log <+: t.log := by
  induction hrun with
  | nil s => exact prefix_rfl
  | cons hcall _ ih =>
    exact (nextInner_log (nextChunk_eq_ok.mp hcall).2).trans ih

/-- **The run, with the pages of the tree.**  The rest of the range is returned and the pages ahead
are fetched, each once. -/
lemma Ranging.pulledToEnd (hfetches : Fetches fetch pages)
    (hranging : Ranging C scope sec pages s.reader rest ahead) :
    ∃ chunks t, PulledToEnd (nextChunk C fetch) s chunks t ∧
      chunks.flatten = rest ∧ t.log.map Prod.fst = s.log.map Prod.fst ++ ahead := by
  induction hn : rest.length using Nat.strong_induction_on generalizing s rest ahead with
  | _ n ih =>
  rcases hinner : nextInner C fetch s.reader s.log with ⟨res, log⟩
  obtain ⟨fetched, ahead', rfl, rfl, hcontinues, hsucceeds⟩ := hranging.step hinner (.inl hfetches)
  obtain ⟨⟨chunk, reader⟩, rfl⟩ := hsucceeds hfetches
  obtain ⟨rest', hrest, hnone, hne, hnext⟩ := hcontinues _ rfl
  have hcall : nextChunk C fetch s = (.ok chunk, ⟨reader, s.log ++ fetched⟩) :=
    nextChunk_eq_ok.mpr ⟨hranging.failed_eq, hinner⟩
  cases chunk with
  | none =>
    obtain ⟨rfl, rfl⟩ := hnone rfl
    exact ⟨[], _, ⟨s, .nil s, hcall⟩, rfl, by simp⟩
  | some chunk =>
    rw [Option.getD_some] at hrest
    have hlt : rest'.length < n := by
      have hpos : 0 < chunk.length := length_pos_iff.mpr fun h => hne (by rw [h])
      rw [← hn, hrest, length_append]
      omega
    obtain ⟨chunks, t, ⟨m, hpulled, hend⟩, hflatten, hlog⟩ :=
      ih _ hlt (s := ⟨reader, s.log ++ fetched⟩) hnext rfl
    refine ⟨chunk :: chunks, t, ⟨m, .cons hcall hpulled, hend⟩, ?_, ?_⟩
    · rw [flatten_cons, hflatten, hrest]
    · rw [hlog, map_append, append_assoc]

/-- **The run, with any callback.**  What was returned continues to the rest of the range. -/
lemma Ranging.of_pulled (hrun : Pulled (nextChunk C fetch) s chunks t)
    (hranging : Ranging C scope sec pages s.reader rest ahead)
    (hfree : CollisionFree C pages t.log) :
    ∃ rest' ahead', rest = chunks.flatten ++ rest' ∧
      s.log.map Prod.fst ++ ahead = t.log.map Prod.fst ++ ahead' ∧
      Ranging C scope sec pages t.reader rest' ahead' := by
  induction hrun generalizing rest ahead with
  | nil s => exact ⟨rest, ahead, rfl, rfl, hranging⟩
  | @cons s s' t chunk chunks hcall hlater ih =>
    have hinner := (nextChunk_eq_ok.mp hcall).2
    obtain ⟨fetched, ahead₁, hlog, rfl, hcontinues, -⟩ := hranging.step hinner
      (.inr (hfree.of_prefix prefix_rfl (pulled_log hlater)))
    obtain ⟨rest₁, rfl, -, -, hnext⟩ := hcontinues _ rfl
    obtain ⟨rest', ahead', rfl, hahead, hdone⟩ := ih hnext hfree
    refine ⟨rest', ahead', by simp, ?_, hdone⟩
    rw [← hahead, hlog, map_append, append_assoc]

/-- A reader starts in the middle of its range. -/
lemma ranging_new {t : PageTree h} (hs : Stored C scope sec pages t) {a z : U64}
    (haz : a ≤ z) (hz : z ≤ t.label.byteLen) :
    ∃ reader, CatalogRangeReader.new scope sec t.label a z = .ok reader ∧
      Ranging C scope sec pages reader ((t.content.take z.val).drop a.val)
        ((t.spansIn a.val z.val 0).map Span.label) ∧ (a = z → reader.pending = []) := by
  rw [Fin.le_def] at haz hz
  have hguard : ¬ (z < a ∨ t.label.byteLen < z) := by
    rw [Fin.lt_def, Fin.lt_def]
    omega
  have hremaining : (Fin.ofNat (2 ^ 64) (z.val - a.val) : U64).val = z.val - a.val := by
    rw [Fin.val_ofNat]
    exact Nat.mod_eq_of_lt (by have := z.isLt; omega)
  have hnew : CatalogRangeReader.new scope sec t.label a z = .ok ⟨scope, sec, a, z,
      if (Fin.ofNat (2 ^ 64) (z.val - a.val) : U64) = 0 then [] else [(t.label, 0)],
      Fin.ofNat _ (z.val - a.val), false⟩ := by
    rw [CatalogRangeReader.new, hs.covers, ok_bind, CatalogPageRef.validate_eq_ok.mpr hs.valid,
      ok_bind, reject, if_neg hguard, ok_bind]
    rfl
  have hsize := hs.byteLen
  have hbound := hs.size_le
  have hlength : ((t.content.take z.val).drop a.val).length = z.val - a.val := by
    rw [length_drop, length_take, Nat.min_eq_left (by rw [← Rope.size]; omega)]
  refine ⟨_, hnew, ⟨rfl, rfl, rfl, ?_, by rw [hremaining, hlength]⟩, fun heq => ?_⟩
  · by_cases hempty : z.val - a.val = 0
    · have hzero : (Fin.ofNat (2 ^ 64) (z.val - a.val) : U64) = 0 := by rw [hempty]; rfl
      refine ⟨[], by rw [if_pos hzero]; exact .nil, ?_, ?_⟩
      · rw [flatMap_nil]
        exact (eq_nil_of_length_eq_zero (hlength.trans hempty)).symm
      · rw [flatMap_nil, Rope.spansIn_of_le (by omega), map_nil]
    · have hne : (Fin.ofNat (2 ^ 64) (z.val - a.val) : U64) ≠ 0 := by
        rw [Ne, Fin.ext_iff, hremaining]
        exact hempty
      refine ⟨[(clip a.val z.val 0 t.content, (t.spansIn a.val z.val 0).map Span.label)],
        ?_, ?_, ?_⟩
      · rw [if_neg hne]
        refine .cons ⟨h, t, hs, rfl, ?_, ?_, ?_, ?_, rfl⟩ .nil
        · show 0 < z.val ∧ a.val < 0 + t.size
          omega
        · show a.val < z.val
          omega
        · omega
        · show 0 + t.size ≤ catalogMaxStreamBytes
          omega
      · simp [clip]
      · simp
  · rw [heq, Nat.sub_self]
    rfl

end Steps

/-! ## Range reads are slices -/

/-- **Range reads are slices of full reads.**  A full read of a tree that verifies returns the
leaves of the tree.  A range reader over a range within the root's bytes returns the bytes of the
range among them, in order, and fetches the pages whose bytes meet the range, each occurrence once.
Whatever its callback answers, the bytes it has returned are an initial part of the range, those of
a run to the end the whole range, and the pages it asked for an initial part of these pages, unless
an answer it accepted collides with a page of the tree.  For an empty range it fetches nothing. -/
theorem range_read_is_slice (C : Crypto) {scope : CatalogScope} {sec : CatalogSection}
    {pages : List Emitted} {h : ℕ} {t : PageTree h} (hstored : Stored C scope sec pages t)
    {a z : U64} (haz : a ≤ z) (hz : z ≤ t.label.byteLen) :
    ∃ reader leaves, CatalogRangeReader.new scope sec t.label a z = .ok reader ∧
      (∀ {ε : Type} (fetch : PageLog → CatalogPageRef → Except ε (List UInt8)),
        (∀ log, ∀ page ∈ pages, fetch log page.1 = .ok page.2) →
        ∃ full s, CatalogReader.new scope sec t.label = .ok full ∧
          ReadToEnd C (CatalogReader.byReference t.label fetch) (.start full) leaves s) ∧
      (∀ {ε : Type} (fetch : PageFetch ε), Fetches fetch pages →
        ∃ chunks s, PulledToEnd (nextChunk C fetch) ⟨reader, []⟩ chunks s ∧
          chunks.flatten = (leaves.flatten.take z.val).drop a.val ∧
          s.log.map Prod.fst =
            ((t.spans 0).filter fun span => span.Meets a.val z.val).map Span.label) ∧
      (∀ {ε : Type} (fetch : PageFetch ε) chunks s,
        Pulled (nextChunk C fetch) ⟨reader, []⟩ chunks s →
        CollisionFree C pages s.log →
        chunks.flatten <+: (leaves.flatten.take z.val).drop a.val ∧
        s.log.map Prod.fst <+:
          ((t.spans 0).filter fun span => span.Meets a.val z.val).map Span.label ∧
        ∀ s', nextChunk C fetch s = (.ok none, s') → CollisionFree C pages s'.log →
          chunks.flatten = (leaves.flatten.take z.val).drop a.val) ∧
      (a = z → ∀ {ε : Type} (fetch : PageFetch ε),
        nextChunk C fetch ⟨reader, []⟩ = (.ok none, ⟨reader, []⟩)) := by
  obtain ⟨reader, hnew, hranging, hempty⟩ := ranging_new hstored haz hz
  have hcontent : t.pieces.flatten = t.content := t.flatten_pieces
  refine ⟨reader, t.pieces, hnew, fun {ε} fetch hfetch => ?_, fun {ε} fetch hfetches => ?_,
    fun {ε} fetch chunks s hpulled hfree => ?_, fun heq {ε} fetch => ?_⟩
  · obtain ⟨full, hfull, -, hreading⟩ := reading_new hstored.covers hstored.height.1 hstored.reads
    obtain ⟨s, hread⟩ :=
      Reading.readToEnd (s := .start full) (serves_byReference hfetch t.label) hreading
    exact ⟨full, s, hfull, hread⟩
  · obtain ⟨chunks, s, hend, hflatten, hlog⟩ :=
      Ranging.pulledToEnd (s := ⟨reader, []⟩) hfetches hranging
    refine ⟨chunks, s, hend, by rw [hflatten, hcontent], ?_⟩
    rw [hlog, map_nil, nil_append]
    rfl
  · obtain ⟨rest, ahead, hrest, hahead, hdone⟩ := hranging.of_pulled hpulled hfree
    rw [map_nil, nil_append] at hahead
    rw [hcontent, hrest]
    refine ⟨prefix_append _ _, ⟨ahead, hahead.symm⟩, fun s' hlast hfree' => ?_⟩
    obtain ⟨fetched, ahead', -, -, hcontinues, -⟩ :=
      hdone.step (nextChunk_eq_ok.mp hlast).2 (.inr hfree')
    obtain ⟨rest', -, hnone, -⟩ := hcontinues _ rfl
    rw [(hnone rfl).1, append_nil]
  · have hnil := (hranging.nextInner_nil fetch (hempty heq) []).1
    exact nextChunk_eq_ok.mpr ⟨hranging.failed_eq, hnil⟩

/-- The second byte of the small tree is read through its second leaf alone. -/
theorem range_read_is_slice_small :
    ∃ reader chunks s, CatalogRangeReader.new (.guild 1) .packing smallRoot 1 2 = .ok reader ∧
      PulledToEnd (nextChunk .transparent fun _ => lookupPage smallPages)
        ⟨reader, []⟩ chunks s ∧ s.log.map Prod.fst = [smallRoot, secondLeaf] := by
  obtain ⟨reader, leaves, hnew, -, hhonest, -, -⟩ :=
    range_read_is_slice .transparent stored_smallTree (a := 1) (z := 2) (by decide)
      (by decide)
  obtain ⟨chunks, s, hend, -, hlog⟩ := hhonest (fun _ => lookupPage smallPages)
    fun _ _ hpage => lookupPage_of_mem (by decide +kernel) hpage
  exact ⟨reader, chunks, s, hnew, hend, hlog.trans (by decide +kernel)⟩

end MutualBackup

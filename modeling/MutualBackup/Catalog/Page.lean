import MutualBackup.Core.Primitives

/-!
# Catalog pages

The pages of `catalog.rs`, out of which a catalog stream is built as a tree: a leaf holds up to
`catalogLeafBytes` bytes of the stream, and an index page holds the references of up to
`catalogFanout` pages one level below.  A reference names a page by the hash of its encoding and
repeats what the page says of itself: its height, the bytes of the stream below it, and the pages
a traversal visits below it, each counted as often as it is referenced.

A page never stands alone: `verifyPage` accepts bytes for a reference, and `Page.encode` is the
only source of references.  `verifyPage_eq_ok` says that the two are inverse: the bytes accepted
for a reference are those of the page that encodes to it.  Everything the readers and builders
rely on comes from there.

`CatalogError` has the variants the modelled code returns.
-/

namespace MutualBackup

open Framework List Codec

/-! ## Records -/

def catalogPageBytes : ℕ := 64 * 1024

def catalogLeafBytes : ℕ := 60 * 1024

def catalogFanout : ℕ := 128

def catalogMaxHeight : ℕ := 3

def catalogMaxStreamBytes : ℕ := 16 * 1024 * 1024 * 1024

def catalogMaxPageOccurrences : ℕ := 1000000

inductive CatalogScope where
  | dataset (guildId : Bytes 32) (owner : NodeId) (protectedRootId : Uuid)
  | guild (guildId : Bytes 32)
  deriving DecidableEq, Repr

/-- The order of the variants is their index on the wire. -/
inductive CatalogSection where
  | fileMetadata
  | gitGraph
  | sectorReferences
  | packing
  | coding
  | checkpoint
  deriving DecidableEq, Repr

structure CatalogPageRef where
  hash : Bytes 32
  encodedLen : U32
  height : U8
  byteLen : U64
  pageOccurrences : U64
  deriving DecidableEq, Repr

inductive PageBody where
  | leaf (bytes : List UInt8)
  | index (children : List CatalogPageRef)
  deriving DecidableEq, Repr

structure Page where
  formatVersion : U16
  scope : CatalogScope
  sec : CatalogSection
  height : U8
  body : PageBody
  deriving DecidableEq, Repr

inductive CatalogError where
  | bounds
  | invalidPage
  | failed
  | model (e : ModelError)
  deriving DecidableEq, Repr

/-- An error of the catalog, or one of the storage behind a callback. -/
inductive CatalogStreamError (ε : Type) where
  | catalog (e : CatalogError)
  | storage (e : ε)
  deriving DecidableEq, Repr

abbrev StreamOutcome (ε α : Type) := Outcome (CatalogStreamError ε) α

/-! ## Codecs -/

def CatalogScope.codec : Codec CatalogScope := enum
    [{ codec := pair (Codec.bytes 32) <| pair NodeId.codec Uuid.codec,
       make := fun p => .dataset p.1 p.2.1 p.2.2,
       match? := fun | .dataset g o r => some (g, o, r) | _ => none },
     { codec := Codec.bytes 32, make := .guild,
       match? := fun | .guild g => some g | _ => none }] (by decide)

/-- A variant that carries nothing. -/
def CatalogSection.variant (s : CatalogSection) : Codec.Variant CatalogSection where
  Payload := Unit
  codec := const ()
  make _ := s
  match? a := if a = s then some () else none
  make_match := by
    intro a p h
    split at h
    · rename_i ha
      exact ha.symm
    · cases h

def CatalogSection.all : List CatalogSection :=
  [.fileMetadata, .gitGraph, .sectorReferences, .packing, .coding, .checkpoint]

def CatalogSection.codec : Codec CatalogSection :=
  enum (CatalogSection.all.map CatalogSection.variant) (by decide)

def CatalogPageRef.codec : Codec CatalogPageRef :=
  (pair (Codec.bytes 32) <| pair u32 <| pair Codec.byte <| pair u64 u64).iso
    (fun r => (r.hash, r.encodedLen, r.height, r.byteLen, r.pageOccurrences))
    (fun p => ⟨p.1, p.2.1, p.2.2.1, p.2.2.2.1, p.2.2.2.2⟩) fun _ => rfl

/-- `decode_leaf` and `decode_index` bound the collections while they are read. -/
def PageBody.codec : Codec PageBody := enum
    [{ codec := (list u8).bounded fun bytes => bytes.length ≤ catalogLeafBytes, make := .leaf,
       match? := fun | .leaf bytes => some bytes | _ => none },
     { codec := (list CatalogPageRef.codec).bounded fun children =>
         children.length ≤ catalogFanout,
       make := .index,
       match? := fun | .index children => some children | _ => none }] (by decide)

def Page.codec : Codec Page := (pair u16 <| pair CatalogScope.codec <| pair CatalogSection.codec <|
    pair Codec.byte PageBody.codec).iso
    (fun p => (p.formatVersion, p.scope, p.sec, p.height, p.body))
    (fun p => ⟨p.1, p.2.1, p.2.2.1, p.2.2.2.1, p.2.2.2.2⟩) fun _ => rfl

/-! ## Validation -/

/-- `CatalogScope::validate`: the sections a scope has. -/
def CatalogScope.validate : CatalogScope → CatalogSection → Outcome CatalogError Unit
  | .dataset _ _ root, .fileMetadata => reject root.isNil .invalidPage
  | .dataset _ _ root, .gitGraph => reject root.isNil .invalidPage
  | .dataset _ _ root, .sectorReferences => reject root.isNil .invalidPage
  | .guild _, .packing => .ok ()
  | .guild _, .coding => .ok ()
  | .guild _, .checkpoint => .ok ()
  | _, _ => fail .invalidPage

namespace CatalogPageRef

/-- `CatalogPageRef::validate`. -/
def validate (r : CatalogPageRef) : Outcome CatalogError Unit :=
  reject (r.encodedLen.val = 0 ∨ catalogPageBytes < r.encodedLen.val ∨
    catalogMaxHeight < r.height.val ∨ catalogMaxStreamBytes < r.byteLen.val ∨
    r.pageOccurrences.val = 0 ∨ catalogMaxPageOccurrences < r.pageOccurrences.val ∨
    (r.height.val = 0 ∧ (r.pageOccurrences.val ≠ 1 ∨ catalogLeafBytes < r.byteLen.val)) ∨
    (0 < r.height.val ∧ (r.byteLen.val = 0 ∨ r.pageOccurrences.val ≤ 1))) .bounds

/-- What a reference says is within the bounds of the format. -/
structure Valid (r : CatalogPageRef) : Prop where
  encodedLen_pos : 0 < r.encodedLen.val
  encodedLen_le : r.encodedLen.val ≤ catalogPageBytes
  height_le : r.height.val ≤ catalogMaxHeight
  byteLen_le : r.byteLen.val ≤ catalogMaxStreamBytes
  occurrences_pos : 0 < r.pageOccurrences.val
  occurrences_le : r.pageOccurrences.val ≤ catalogMaxPageOccurrences
  leaf : r.height.val = 0 → r.pageOccurrences.val = 1 ∧ r.byteLen.val ≤ catalogLeafBytes
  index : 0 < r.height.val → 0 < r.byteLen.val ∧ 1 < r.pageOccurrences.val

lemma validate_eq_ok {r : CatalogPageRef} : r.validate = .ok () ↔ r.Valid := by
  rw [validate, reject_eq_ok]
  constructor
  · intro h
    push Not at h
    obtain ⟨hpos, hle, hheight, hbytes, hocc, hoccLe, hleaf, hindex⟩ := h
    exact
      { encodedLen_pos := Nat.pos_of_ne_zero hpos
        encodedLen_le := hle
        height_le := hheight
        byteLen_le := hbytes
        occurrences_pos := Nat.pos_of_ne_zero hocc
        occurrences_le := hoccLe
        leaf := hleaf
        index := fun hh => ⟨Nat.pos_of_ne_zero (hindex hh).1, (hindex hh).2⟩ }
  · intro h
    have hpos := h.encodedLen_pos
    have hocc := h.occurrences_pos
    push Not
    refine ⟨by omega, h.encodedLen_le, h.height_le, h.byteLen_le, by omega, h.occurrences_le,
      h.leaf, fun hh => ?_⟩
    have := h.index hh
    exact ⟨by omega, this.2⟩

end CatalogPageRef

/-! ## Encoding -/

namespace Page

/-- One turn of the loop of `counts`.  The sum `child.height + 1` is in range once `child` has
passed its own check. -/
def addChild (height : U8) (counts : U64 × U64) (child : CatalogPageRef) :
    Outcome CatalogError (U64 × U64) := do
  child.validate
  reject (child.height.val + 1 ≠ height.val ∨ child.byteLen.val = 0) .invalidPage
  let byteLen ← okOr (checkedAdd counts.1 child.byteLen) .bounds
  let pages ← okOr (checkedAdd counts.2 child.pageOccurrences) .bounds
  pure (byteLen, pages)

/-- `Page::counts`: the bytes of the stream at and below the page, and the pages. -/
def counts (p : Page) : Outcome CatalogError (U64 × U64) := do
  p.scope.validate p.sec
  reject (p.formatVersion ≠ 1 ∨ catalogMaxHeight < p.height.val) .invalidPage
  match p.body with
  | .leaf bytes => do
    reject (p.height.val ≠ 0 ∨ catalogLeafBytes < bytes.length) .invalidPage
    pure (Fin.ofNat _ bytes.length, 1)
  | .index children => do
    reject (p.height.val = 0 ∨ children = [] ∨ catalogFanout < children.length) .invalidPage
    let sums ← children.foldlM (addChild p.height) (0, 1)
    reject (catalogMaxStreamBytes < sums.1.val ∨ catalogMaxPageOccurrences < sums.2.val) .bounds
    pure sums

end Page

/-- `page_hash`. -/
def pageHash (C : Crypto) (bytes : List UInt8) : Bytes 32 :=
  C.deriveKey "mutualbackup catalog page v1" bytes

/-- `Page::encode`. -/
def Page.encode (C : Crypto) (p : Page) : Outcome CatalogError (CatalogPageRef × List UInt8) := do
  let counts ← p.counts
  let bytes ← mapErr .model (canonicalBytes Page.codec p)
  reject (catalogPageBytes < bytes.length) .bounds
  pure (⟨pageHash C bytes, Fin.ofNat _ bytes.length, p.height, counts.1, counts.2⟩, bytes)

/-- `verify_page`. -/
def verifyPage (C : Crypto) (expected : CatalogPageRef) (scope : CatalogScope)
    (sec : CatalogSection) (bytes : List UInt8) : Outcome CatalogError Page := do
  expected.validate
  reject (bytes.length ≠ expected.encodedLen.val ∨ pageHash C bytes ≠ expected.hash) .invalidPage
  let page ← mapErr .model (decodeCanonical Page.codec bytes)
  reject (page.scope ≠ scope ∨ page.sec ≠ sec) .invalidPage
  let (reference, canonical) ← page.encode C
  reject (reference ≠ expected ∨ canonical ≠ bytes) .invalidPage
  pure page

/-! ## What an encoded page is -/

namespace Page

variable {C : Crypto} {p : Page} {r : CatalogPageRef} {bytes : List UInt8}

/-- The header of a page of format one. -/
structure Framed (p : Page) : Prop where
  covers : p.scope.validate p.sec = .ok ()
  version : p.formatVersion = 1
  height_le : p.height.val ≤ catalogMaxHeight

/-- A reference that may stand in an index page of the given height. -/
structure IsChild (height : ℕ) (child : CatalogPageRef) : Prop where
  valid : child.Valid
  height_succ : child.height.val + 1 = height
  byteLen_pos : 0 < child.byteLen.val

lemma addChild_eq_ok {height : U8} {before after : U64 × U64} {child : CatalogPageRef} :
    addChild height before child = .ok after ↔
      IsChild height.val child ∧ after.1.val = before.1.val + child.byteLen.val ∧
        after.2.val = before.2.val + child.pageOccurrences.val := by
  obtain ⟨a, b⟩ := after
  simp only [addChild, bind_eq_ok, exists_unit, CatalogPageRef.validate_eq_ok, reject_eq_ok,
    okOr_eq_ok, checkedAdd_eq_some, pure_eq_ok, Prod.mk.injEq]
  constructor
  · rintro ⟨hvalid, hguard, bl, hbl, pg, hpg, rfl, rfl⟩
    push Not at hguard
    exact ⟨⟨hvalid, hguard.1, Nat.pos_of_ne_zero hguard.2⟩, hbl, hpg⟩
  · rintro ⟨hchild, ha, hb⟩
    have hpos := hchild.byteLen_pos
    refine ⟨hchild.valid, ?_, a, ha, b, hb, rfl, rfl⟩
    push Not
    exact ⟨hchild.height_succ, by omega⟩

/-- The loop succeeds on good children whose sums are in range, and returns the sums. -/
lemma foldlM_addChild_eq_ok {height : U8} {children : List CatalogPageRef}
    {before after : U64 × U64} :
    children.foldlM (addChild height) before = .ok after ↔
      (∀ child ∈ children, IsChild height.val child) ∧
      after.1.val = before.1.val + (children.map fun c => c.byteLen.val).sum ∧
      after.2.val = before.2.val + (children.map fun c => c.pageOccurrences.val).sum := by
  induction children generalizing before with
  | nil =>
    simp only [foldlM_nil, pure_eq_ok, not_mem_nil, false_imp_iff, implies_true,
      true_and, map_nil, sum_nil, Nat.add_zero]
    rw [Prod.ext_iff, Fin.ext_iff, Fin.ext_iff]
    exact ⟨fun h => ⟨h.1.symm, h.2.symm⟩, fun h => ⟨h.1.symm, h.2.symm⟩⟩
  | cons child children ih =>
    rw [foldlM_cons, bind_eq_ok]
    simp only [addChild_eq_ok, ih, forall_mem_cons, map_cons, sum_cons]
    constructor
    · rintro ⟨mid, ⟨hchild, hb, hp⟩, hall, hb', hp'⟩
      exact ⟨⟨hchild, hall⟩, by omega, by omega⟩
    · rintro ⟨⟨hchild, hall⟩, hb, hp⟩
      -- A partial sum is at most the total, so it is in range.
      have hb' : before.1.val + child.byteLen.val < 2 ^ 64 := by
        have := after.1.isLt
        omega
      have hp' : before.2.val + child.pageOccurrences.val < 2 ^ 64 := by
        have := after.2.isLt
        omega
      exact ⟨(⟨_, hb'⟩, ⟨_, hp'⟩), ⟨hchild, rfl, rfl⟩, hall, by simp only; omega,
        by simp only; omega⟩

variable {sums : U64 × U64}

lemma counts_leaf_eq_ok {data : List UInt8} (hbody : p.body = .leaf data) :
    p.counts = .ok sums ↔ p.Framed ∧ p.height.val = 0 ∧ data.length ≤ catalogLeafBytes ∧
      sums.1.val = data.length ∧ sums.2.val = 1 := by
  obtain ⟨a, b⟩ := sums
  have hofNat : data.length ≤ catalogLeafBytes →
      (Fin.ofNat (2 ^ 64) data.length : U64).val = data.length := by
    intro hle
    have : catalogLeafBytes = 61440 := rfl
    rw [Fin.val_ofNat]
    exact Nat.mod_eq_of_lt (by omega)
  have hone : (1 : U64).val = 1 := rfl
  simp only [counts, hbody, bind_eq_ok, exists_unit, reject_eq_ok, pure_eq_ok, Prod.mk.injEq]
  constructor
  · rintro ⟨hcovers, hframe, hguard, rfl, rfl⟩
    push Not at hframe hguard
    exact ⟨⟨hcovers, hframe.1, hframe.2⟩, hguard.1, hguard.2, hofNat hguard.2, hone⟩
  · rintro ⟨hframed, hheight, hle, ha, hb⟩
    refine ⟨hframed.covers, ?_, ?_, ?_, ?_⟩
    · push Not
      exact ⟨hframed.version, hframed.height_le⟩
    · push Not
      exact ⟨hheight, hle⟩
    · rw [Fin.ext_iff, hofNat hle, ha]
    · rw [Fin.ext_iff, hone, hb]

lemma counts_index_eq_ok {children : List CatalogPageRef} (hbody : p.body = .index children) :
    p.counts = .ok sums ↔ p.Framed ∧ 0 < p.height.val ∧ children ≠ [] ∧
      children.length ≤ catalogFanout ∧ (∀ child ∈ children, IsChild p.height.val child) ∧
      sums.1.val = (children.map fun c => c.byteLen.val).sum ∧
      sums.2.val = 1 + (children.map fun c => c.pageOccurrences.val).sum ∧
      sums.1.val ≤ catalogMaxStreamBytes ∧ sums.2.val ≤ catalogMaxPageOccurrences := by
  have hzero : (0 : U64).val = 0 := rfl
  have hone : (1 : U64).val = 1 := rfl
  simp only [counts, hbody, bind_eq_ok, exists_unit, reject_eq_ok,
    pure_eq_ok, foldlM_addChild_eq_ok, hzero, hone, Nat.zero_add]
  constructor
  · rintro ⟨hcovers, hframe, hguard, got, ⟨hchildren, hb, hp⟩, hbound, rfl⟩
    push Not at hframe hguard hbound
    exact ⟨⟨hcovers, hframe.1, hframe.2⟩, Nat.pos_of_ne_zero hguard.1, hguard.2.1, hguard.2.2,
      hchildren, hb, hp, hbound.1, hbound.2⟩
  · rintro ⟨hframed, hheight, hne, hlen, hchildren, hb, hp, hbb, hpp⟩
    refine ⟨hframed.covers, ?_, ?_, sums, ⟨hchildren, hb, hp⟩, ?_, rfl⟩
    · push Not
      exact ⟨hframed.version, hframed.height_le⟩
    · push Not
      exact ⟨by omega, hne, hlen⟩
    · push Not
      exact ⟨hbb, hpp⟩

/-- The counts of a page are within the bounds its reference is checked against. -/
lemma counts_bounds (h : p.counts = .ok sums) :
    p.Framed ∧ 0 < sums.2.val ∧ sums.1.val ≤ catalogMaxStreamBytes ∧
      sums.2.val ≤ catalogMaxPageOccurrences ∧
      (p.height.val = 0 → sums.2.val = 1 ∧ sums.1.val ≤ catalogLeafBytes) ∧
      (0 < p.height.val → 0 < sums.1.val ∧ 1 < sums.2.val) := by
  cases hbody : p.body with
  | leaf data =>
    obtain ⟨hframed, hheight, hle, hb, hp⟩ := (counts_leaf_eq_ok hbody).mp h
    have hleaf : catalogLeafBytes = 61440 := rfl
    have hstream : catalogMaxStreamBytes = 17179869184 := rfl
    have hocc : catalogMaxPageOccurrences = 1000000 := rfl
    exact ⟨hframed, by omega, by omega, by omega, fun _ => ⟨hp, by omega⟩, fun hpos => by omega⟩
  | index children =>
    obtain ⟨hframed, hheight, hne, -, hchildren, hb, hp, hbb, hpp⟩ :=
      (counts_index_eq_ok hbody).mp h
    -- One child is enough for both sums to be positive.
    obtain ⟨child, rest, rfl⟩ := exists_cons_of_ne_nil hne
    have hchild := hchildren child mem_cons_self
    have hbytes := hchild.byteLen_pos
    have hpages := hchild.valid.occurrences_pos
    simp only [map_cons, sum_cons] at hb hp
    exact ⟨hframed, by omega, hbb, hpp, fun hzero => by omega, fun _ => ⟨by omega, by omega⟩⟩

lemma readable_scope (scope : CatalogScope) : CatalogScope.codec.Readable scope := by
  refine forall_mem_cons.mpr ⟨fun q _ => ?_, forall_mem_cons.mpr ⟨fun q _ => ?_, ?_⟩⟩
  · exact ⟨trivial, trivial, fun _ _ => trivial⟩
  · trivial
  · exact forall_mem_nil _

lemma readable_section (sec : CatalogSection) :
    CatalogSection.codec.Readable sec := by
  intro v hv q _
  obtain ⟨s, -, rfl⟩ := mem_map.mp hv
  trivial

lemma encode_eq_ok :
    p.encode C = .ok (r, bytes) ↔
      p.counts = .ok (r.byteLen, r.pageOccurrences) ∧ Page.codec.encode p = some bytes ∧
      bytes.length ≤ catalogPageBytes ∧ r.hash = pageHash C bytes ∧
      r.encodedLen.val = bytes.length ∧ r.height = p.height := by
  have hofNat : bytes.length ≤ catalogPageBytes →
      (Fin.ofNat (2 ^ 32) bytes.length : U32).val = bytes.length := by
    intro hle
    have : catalogPageBytes = 65536 := rfl
    rw [Fin.val_ofNat]
    exact Nat.mod_eq_of_lt (by omega)
  simp only [encode, bind_eq_ok, mapErr_eq_ok, canonicalBytes_eq_ok, exists_unit, reject_eq_ok,
    pure_eq_ok, Prod.mk.injEq, not_lt]
  constructor
  · rintro ⟨sums, hcounts, got, hgot, hle, rfl, rfl⟩
    exact ⟨hcounts, hgot, hle, rfl, hofNat hle, rfl⟩
  · rintro ⟨hcounts, hbytes, hle, hhash, hlen, hheight⟩
    refine ⟨_, hcounts, bytes, hbytes, hle, ?_, rfl⟩
    have hencoded : r.encodedLen = Fin.ofNat _ bytes.length := by
      rw [Fin.ext_iff, hofNat hle, hlen]
    obtain ⟨hash, encodedLen, height, byteLen, pageOccurrences⟩ := r
    simp_all

lemma ne_nil_of_codec (h : Page.codec.encode p = some bytes) : bytes ≠ [] := by
  rw [Page.codec, Codec.encode_iso, Codec.encode_pair_eq_some] at h
  obtain ⟨x, y, hx, -, rfl⟩ := h
  -- The version is written first, in at least one byte.
  have hne : x ≠ [] := by
    cases hx
    rw [Codec.encodeVarint]
    split <;> simp
  simp [hne]

/-- The reference of an encoded page passes its own check. -/
lemma valid_of_encode (h : p.encode C = .ok (r, bytes)) : r.Valid := by
  obtain ⟨hcounts, hbytes, hle, -, hlen, hheight⟩ := encode_eq_ok.mp h
  obtain ⟨hframed, hpos, hstream, hocc, hleaf, hindex⟩ := counts_bounds hcounts
  have hne := length_pos_of_ne_nil (ne_nil_of_codec hbytes)
  exact
    { encodedLen_pos := by omega
      encodedLen_le := by omega
      height_le := by rw [hheight]; exact hframed.height_le
      byteLen_le := hstream
      occurrences_pos := hpos
      occurrences_le := hocc
      leaf := by rw [hheight]; exact hleaf
      index := by rw [hheight]; exact hindex }

lemma fitsIn_scope (scope : CatalogScope) : CatalogScope.codec.FitsIn scope (5 + 90) := by
  refine fitsIn_enum ?_ (forall_mem_cons.mpr ⟨fun q _ => ?_,
    forall_mem_cons.mpr ⟨fun q _ => ?_, forall_mem_nil _⟩⟩)
  · cases scope
    · exact ⟨_, mem_cons_self, rfl⟩
    · exact ⟨_, mem_cons_of_mem _ mem_cons_self, rfl⟩
  · have huuid : Uuid.codec.FitsIn q.2.2 (10 + 16) := fitsIn_iso (fitsIn_sizedBytes (by norm_num) _)
    have howner : NodeId.codec.FitsIn q.2.1 32 := fitsIn_iso (fitsIn_bytes _)
    exact fitsIn_pair (fitsIn_bytes q.1) (fitsIn_pair howner huuid)
  · exact (fitsIn_bytes q).mono (by norm_num)

lemma fitsIn_section (sec : CatalogSection) :
    CatalogSection.codec.FitsIn sec (5 + 0) := by
  refine fitsIn_enum ⟨sec.variant, ?_, ?_⟩ fun v hv q _ => ?_
  · exact mem_map_of_mem (by cases sec <;> decide)
  · simp [CatalogSection.variant]
  · obtain ⟨s, -, rfl⟩ := mem_map.mp hv
    exact ⟨[], rfl, le_rfl⟩

lemma fitsIn_reference (r : CatalogPageRef) : CatalogPageRef.codec.FitsIn r 58 :=
  fitsIn_iso (fitsIn_pair (fitsIn_bytes _) (fitsIn_pair
    (fitsIn_uint _) (fitsIn_pair (fitsIn_byte _) (fitsIn_pair
      (fitsIn_uint _) (fitsIn_uint _)))))

section

variable {body : PageBody} (hleaf : ∀ data, body = .leaf data → data.length ≤ catalogLeafBytes)
  (hindex : ∀ children, body = .index children → children.length ≤ catalogFanout)

include hleaf hindex

lemma readable_body : PageBody.codec.Readable body := by
  refine forall_mem_cons.mpr ⟨fun data hd => ?_,
    forall_mem_cons.mpr ⟨fun children hc => ?_, forall_mem_nil _⟩⟩
  · cases body with
    | leaf got =>
      cases hd
      exact ⟨fun _ _ => trivial, hleaf data rfl⟩
    | index got => cases hd
  · cases body with
    | leaf got => cases hc
    | index got =>
      cases hc
      exact ⟨fun _ _ => ⟨trivial, trivial, trivial, trivial, trivial⟩, hindex children rfl⟩

lemma fitsIn_body : PageBody.codec.FitsIn body (5 + (10 + catalogLeafBytes)) := by
  have hleafBytes : catalogLeafBytes = 61440 := rfl
  have hfanout : catalogFanout = 128 := rfl
  refine fitsIn_enum ?_ (forall_mem_cons.mpr ⟨fun data hd => ?_,
    forall_mem_cons.mpr ⟨fun children hc => ?_, forall_mem_nil _⟩⟩)
  · cases body
    · exact ⟨_, mem_cons_self, rfl⟩
    · exact ⟨_, mem_cons_of_mem _ mem_cons_self, rfl⟩
  · cases body with
    | leaf got =>
      cases hd
      have hlen := hleaf data rfl
      have hfits : (list u8).FitsIn data (10 + data.length) := fitsIn_list_u8 (by omega)
      exact hfits.mono (by omega)
    | index got => cases hd
  · cases body with
    | leaf got => cases hc
    | index got =>
      cases hc
      have hlen := hindex children rfl
      have hfits : (list CatalogPageRef.codec).FitsIn children
          (10 + children.length * 58) :=
        fitsIn_list (by omega) fun r _ => fitsIn_reference r
      exact hfits.mono (by omega)

end

/-- A page with counts is within the limits of the reader. -/
lemma readable_of_counts (h : p.counts = .ok sums) : Page.codec.Readable p := by
  refine ⟨trivial, readable_scope _, readable_section _, trivial, readable_body ?_ ?_⟩
  · intro data hbody
    exact ((counts_leaf_eq_ok hbody).mp h).2.2.1
  · intro children hbody
    exact ((counts_index_eq_ok hbody).mp h).2.2.2.1

/-- A page with counts fits into the bound of a page. -/
lemma fitsIn_of_counts (h : p.counts = .ok sums) : Page.codec.FitsIn p catalogPageBytes := by
  have hbody : PageBody.codec.FitsIn p.body (5 + (10 + catalogLeafBytes)) :=
    fitsIn_body (fun data hb => ((counts_leaf_eq_ok hb).mp h).2.2.1)
      fun children hb => ((counts_index_eq_ok hb).mp h).2.2.2.1
  have hall : Page.codec.FitsIn p
      (3 + ((5 + 90) + ((5 + 0) + (1 + (5 + (10 + catalogLeafBytes)))))) :=
    fitsIn_iso (fitsIn_pair (fitsIn_uint _) (fitsIn_pair (fitsIn_scope _)
      (fitsIn_pair (fitsIn_section _) (fitsIn_pair (fitsIn_byte _) hbody))))
  exact hall.mono (by decide)

/-- A page with counts has an encoding, and its reference repeats the counts. -/
lemma exists_encode (h : p.counts = .ok sums) :
    ∃ r bytes, p.encode C = .ok (r, bytes) ∧ r.byteLen = sums.1 ∧ r.pageOccurrences = sums.2 ∧
      r.height = p.height := by
  obtain ⟨bytes, hbytes, hlen⟩ := fitsIn_of_counts h
  have hlt : bytes.length < 2 ^ 32 := lt_of_le_of_lt hlen (by decide)
  exact ⟨⟨pageHash C bytes, ⟨bytes.length, hlt⟩, p.height, sums.1, sums.2⟩, bytes,
    encode_eq_ok.mpr ⟨h, hbytes, hlen, rfl, rfl, rfl⟩, rfl, rfl, rfl⟩

lemma val_height {h : ℕ} (hh : h ≤ catalogMaxHeight) : (Fin.ofNat (2 ^ 8) h : U8).val = h := by
  have hmax : catalogMaxHeight = 3 := rfl
  rw [Fin.val_ofNat]
  exact Nat.mod_eq_of_lt (by omega)

section Bodies

variable {scope : CatalogScope} {sec : CatalogSection} (hcovers : scope.validate sec = .ok ())

include hcovers

lemma exists_encode_leaf {data : List UInt8} (hlen : data.length ≤ catalogLeafBytes) :
    ∃ r bytes, encode C ⟨1, scope, sec, 0, .leaf data⟩ = .ok (r, bytes) ∧
      r.byteLen.val = data.length ∧ r.pageOccurrences.val = 1 := by
  have hleaf : catalogLeafBytes = 61440 := rfl
  have hcounts : counts ⟨1, scope, sec, 0, .leaf data⟩ = .ok (⟨data.length, by omega⟩, 1) :=
    (counts_leaf_eq_ok rfl).mpr ⟨⟨hcovers, rfl, Nat.zero_le _⟩, rfl, hlen, rfl, rfl⟩
  obtain ⟨r, bytes, hencode, hbytes, hpages, -⟩ := exists_encode (C := C) hcounts
  exact ⟨r, bytes, hencode, congrArg Fin.val hbytes, congrArg Fin.val hpages⟩

lemma exists_encode_index {h : ℕ} {children : List CatalogPageRef}
    (hheight : h + 1 ≤ catalogMaxHeight) (hne : children ≠ [])
    (hlen : children.length ≤ catalogFanout) (hchildren : ∀ c ∈ children, IsChild (h + 1) c)
    (hbytes : (children.map fun c => c.byteLen.val).sum ≤ catalogMaxStreamBytes)
    (hpages : 1 + (children.map fun c => c.pageOccurrences.val).sum ≤ catalogMaxPageOccurrences) :
    ∃ r bytes, encode C ⟨1, scope, sec, Fin.ofNat _ (h + 1), .index children⟩ = .ok (r, bytes) ∧
      r.byteLen.val = (children.map fun c => c.byteLen.val).sum ∧
      r.pageOccurrences.val = 1 + (children.map fun c => c.pageOccurrences.val).sum := by
  have hstream : catalogMaxStreamBytes = 17179869184 := rfl
  have hocc : catalogMaxPageOccurrences = 1000000 := rfl
  have hcounts : counts ⟨1, scope, sec, Fin.ofNat _ (h + 1), .index children⟩ =
      .ok (⟨(children.map fun c => c.byteLen.val).sum, by omega⟩,
        ⟨1 + (children.map fun c => c.pageOccurrences.val).sum, by omega⟩) := by
    refine (counts_index_eq_ok rfl).mpr ⟨⟨hcovers, rfl, ?_⟩, ?_, hne, hlen, ?_, rfl, rfl, hbytes,
      hpages⟩
    all_goals rw [val_height hheight]
    · exact hheight
    · exact Nat.succ_pos h
    · exact hchildren
  obtain ⟨r, bytes, hencode, hb, hp, -⟩ := exists_encode (C := C) hcounts
  exact ⟨r, bytes, hencode, congrArg Fin.val hb, congrArg Fin.val hp⟩

end Bodies

/-- A page is determined by its bytes. -/
lemma eq_of_encode {p q : Page} {r s : CatalogPageRef} (hp : p.encode C = .ok (r, bytes))
    (hq : q.encode C = .ok (s, bytes)) : p = q := by
  obtain ⟨hpc, hpb, -⟩ := encode_eq_ok.mp hp
  obtain ⟨hqc, hqb, -⟩ := encode_eq_ok.mp hq
  exact Page.codec.encode_injective (readable_of_counts hpc) (readable_of_counts hqc) hpb hqb

end Page

/-- **Verification inverts encoding.**  The bytes accepted for a reference are those of the page
that encodes to it, and the page is of the scope and section asked for. -/
lemma verifyPage_eq_ok {C : Crypto} {r : CatalogPageRef} {scope : CatalogScope}
    {sec : CatalogSection} {bytes : List UInt8} {p : Page} :
    verifyPage C r scope sec bytes = .ok p ↔
      p.encode C = .ok (r, bytes) ∧ p.scope = scope ∧ p.sec = sec := by
  simp only [verifyPage, bind_eq_ok, exists_unit, CatalogPageRef.validate_eq_ok, reject_eq_ok,
    mapErr_eq_ok, decodeCanonical, okOr_eq_ok, pure_eq_ok, Prod.exists]
  constructor
  · rintro ⟨-, -, q, -, hscope, reference, canonical, hencode, hsame, rfl⟩
    push Not at hscope hsame
    obtain ⟨rfl, rfl⟩ := hsame
    exact ⟨hencode, hscope.1, hscope.2⟩
  · rintro ⟨hencode, hscope, hsection⟩
    obtain ⟨hcounts, hbytes, -, hhash, hlen, -⟩ := Page.encode_eq_ok.mp hencode
    refine ⟨Page.valid_of_encode hencode, ?_, p, ?_, ?_, r, bytes, hencode, ?_, rfl⟩
    · push Not
      exact ⟨hlen.symm, hhash.symm⟩
    · exact Page.codec.fromBytes_encode (Page.readable_of_counts hcounts) hbytes
    · push Not
      exact ⟨hscope, hsection⟩
    · push Not
      exact ⟨rfl, rfl⟩

end MutualBackup

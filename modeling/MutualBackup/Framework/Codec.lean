import Mathlib.Data.Vector.Defs
import MutualBackup.Framework.FixedWidth

/-!
# Self-delimiting codecs

A `Codec α` is a writer, a prefix parser, and the law that the parser undoes the writer in front
of every suffix.  Writers are partial: a versioned record refuses the combinations of fields that
its version does not have, and a vector longer than a length field can say has no encoding.
Parsers can be stricter than writers: a bounded field is written at any length and read only within
its limit.  `Readable` collects those limits, and the law is asked of readable values.

The combinators are those of the Postcard wire format: integers wider than a byte are written in
groups of seven bits, least significant first, with a continuation bit (`uint`); fixed arrays and
tuples are concatenated with no framing (`bytes`, `array`, `pair`); vectors and strings are
preceded by their length (`list`, `string`); an option by a byte `0` or `1` (`option`); an
enumeration by the index of its variant (`enum`).  `dep` lets the fields written first decide how
the rest is written, which is how a version number selects the fields of its record.  The round
trip of a record is then a consequence of how its codec is assembled, and is never proved again.
-/

namespace Framework

open List Option

/-- A partial writer and a prefix parser that undoes it. -/
structure Codec (α : Type) where
  /-- The bytes of a value, when it has an encoding. -/
  encode : α → Option (List UInt8)
  /-- Read one value and return the rest of the input. -/
  decode : List UInt8 → Option (α × List UInt8)
  /-- The values within the limits of the reader. -/
  Readable : α → Prop
  /-- Reading consumes exactly what was written. -/
  decode_encode : ∀ {a : α} {bs : List UInt8} (rest : List UInt8),
    Readable a → encode a = some bs → decode (bs ++ rest) = some (a, rest)

namespace Codec

variable {α β : Type}

lemma bind_map_eq_some {γ : Type} {o : Option α} {f : α → Option β} {g : α → β → γ} {r : γ} :
    (o.bind fun a => (f a).map (g a)) = some r ↔
      ∃ a, o = some a ∧ ∃ b, f a = some b ∧ g a b = r := by
  simp only [bind_eq_some_iff, map_eq_some_iff]

/-! ## Structure -/

/-- Transport along a map with a partial left inverse: the reader refuses what `g` refuses. -/
def via (c : Codec β) (f : α → β) (g : β → Option α) (h : ∀ a, g (f a) = some a) : Codec α where
  encode a := c.encode (f a)
  decode bs := (c.decode bs).bind fun p => (g p.1).map fun a => (a, p.2)
  Readable a := c.Readable (f a)
  decode_encode := by
    intro a bs rest ha hbs
    rw [c.decode_encode rest ha hbs, Option.bind_some, h, Option.map_some]

/-- Transport along a map with a left inverse. -/
def iso (c : Codec β) (f : α → β) (g : β → α) (h : ∀ a, g (f a) = a) : Codec α :=
  c.via f (fun b => some (g b)) fun a => congrArg some (h a)

/-- The fields written first decide the codec of the rest. -/
def dep (c : Codec α) (d : α → Codec β) : Codec (α × β) where
  encode p := (c.encode p.1).bind fun x => ((d p.1).encode p.2).map fun y => x ++ y
  decode bs := (c.decode bs).bind fun p => ((d p.1).decode p.2).map fun q => ((p.1, q.1), q.2)
  Readable p := c.Readable p.1 ∧ (d p.1).Readable p.2
  decode_encode := by
    rintro ⟨a, b⟩ bs rest ⟨ha, hb⟩ hbs
    obtain ⟨x, hx, y, hy, rfl⟩ := bind_map_eq_some.mp hbs
    rw [append_assoc, c.decode_encode _ ha hx, Option.bind_some,
      (d a).decode_encode rest hb hy, Option.map_some]

/-- Two fields in sequence. -/
def pair (c : Codec α) (d : Codec β) : Codec (α × β) := dep c fun _ => d

lemma encode_iso {c : Codec β} {f : α → β} {g : β → α} {h : ∀ a, g (f a) = a} (a : α) :
    (c.iso f g h).encode a = c.encode (f a) := rfl

variable {bs : List UInt8} {c : Codec α} {d : Codec β}

lemma encode_pair_eq_some {p : α × β} :
    (pair c d).encode p = some bs ↔
      ∃ x y, c.encode p.1 = some x ∧ d.encode p.2 = some y ∧ x ++ y = bs := by
  refine bind_map_eq_some.trans ⟨?_, ?_⟩
  · rintro ⟨x, hx, y, hy, he⟩
    exact ⟨x, y, hx, hy, he⟩
  · rintro ⟨x, y, hx, hy, he⟩
    exact ⟨x, hx, y, hy, he⟩

/-- No bytes, for the one value `a`. -/
def const [DecidableEq α] (a : α) : Codec α where
  encode b := if b = a then some [] else none
  decode bs := some (a, bs)
  Readable _ := True
  decode_encode := by
    intro b bs rest _ hbs
    split at hbs
    · rename_i hb
      cases hbs
      rw [hb, nil_append]
    · cases hbs

/-- A record that has no encoding. -/
def never : Codec α where
  encode _ := none
  decode _ := none
  Readable _ := True
  decode_encode := by
    intro a bs rest _ hbs
    cases hbs

/-- The reader refuses what does not satisfy `P`; the writer does not look. -/
def bounded (c : Codec α) (P : α → Prop) [DecidablePred P] : Codec α where
  encode := c.encode
  decode bs := (c.decode bs).filter fun p => P p.1
  Readable a := c.Readable a ∧ P a
  decode_encode := by
    intro a bs rest ⟨ha, hP⟩ hbs
    rw [c.decode_encode rest ha hbs]
    simp [hP]

/-! ## Integers -/

/-- Seven bits a byte, least significant first, in at most `k` bytes. -/
def encodeVarint : ℕ → ℕ → List UInt8
  | 0, _ => []
  | k + 1, n =>
    if n < 128 then [UInt8.ofNat n]
    else UInt8.ofNat (n % 128 + 128) :: encodeVarint k (n / 128)

/-- Read at most `k` bytes up to the first without its continuation bit. -/
def decodeVarint : ℕ → List UInt8 → Option (ℕ × List UInt8)
  | 0, _ => none
  | _ + 1, [] => none
  | k + 1, b :: bs =>
    if b.toNat < 128 then some (b.toNat, bs)
    else (decodeVarint k bs).map fun p => (b.toNat - 128 + 128 * p.1, p.2)

variable {n : ℕ}

lemma decodeVarint_encodeVarint {k : ℕ} (h : n < 128 ^ (k + 1)) (rest : List UInt8) :
    decodeVarint (k + 1) (encodeVarint (k + 1) n ++ rest) = some (n, rest) := by
  induction k generalizing n with
  | zero =>
    have hn : n < 128 := by simpa using h
    have hb : (UInt8.ofNat n).toNat = n := by rw [UInt8.toNat_ofNat']; omega
    simp [encodeVarint, decodeVarint, hn, hb]
  | succ k ih =>
    rw [encodeVarint]
    by_cases hn : n < 128
    · have hb : (UInt8.ofNat n).toNat = n := by rw [UInt8.toNat_ofNat']; omega
      simp [decodeVarint, hn, hb]
    · have hb : (UInt8.ofNat (n % 128 + 128)).toNat = n % 128 + 128 := by
        rw [UInt8.toNat_ofNat']
        omega
      have hdiv : n / 128 < 128 ^ (k + 1) := by
        rw [Nat.div_lt_iff_lt_mul (by norm_num)]
        rwa [pow_succ] at h
      rw [if_neg hn, cons_append, decodeVarint, hb, if_neg (by omega), ih hdiv, map_some]
      congr 2
      omega

/-- A `w`-bit integer in at most `k + 1` groups of seven bits. -/
def uint (w k : ℕ) (h : 2 ^ w ≤ 128 ^ (k + 1)) : Codec (Fin (2 ^ w)) where
  encode n := some (encodeVarint (k + 1) n.val)
  decode bs :=
    (decodeVarint (k + 1) bs).bind fun p =>
      if hp : p.1 < 2 ^ w then some (⟨p.1, hp⟩, p.2) else none
  Readable _ := True
  decode_encode := by
    intro n bs rest _ hbs
    cases hbs
    rw [decodeVarint_encodeVarint (lt_of_lt_of_le n.isLt h), Option.bind_some, dif_pos n.isLt]

/-- A `u16`. -/
def u16 : Codec U16 := uint 16 2 (by norm_num)

/-- A `u32`, also the discriminant of an enumeration. -/
def u32 : Codec U32 := uint 32 4 (by norm_num)

/-- A `u64`, also the length of a vector. -/
def u64 : Codec U64 := uint 64 9 (by norm_num)

/-- A `u8` is one byte. -/
def u8 : Codec UInt8 where
  encode b := some [b]
  decode
    | [] => none
    | b :: bs => some (b, bs)
  Readable _ := True
  decode_encode := by
    intro b bs rest _ hbs
    cases hbs
    rfl

/-- A `u8` that the program computes with, as its one byte. -/
def byte : Codec U8 :=
  u8.iso (fun n => UInt8.ofNat n.val) (fun b => ⟨b.toNat, b.toNat_lt⟩) fun n => by
    have := n.isLt
    rw [Fin.ext_iff]
    show (UInt8.ofNat n.val).toNat = n.val
    rw [UInt8.toNat_ofNat']
    omega

/-- A `bool` is the byte `0` or `1`. -/
def bool : Codec Bool where
  encode b := some [if b then 1 else 0]
  decode
    | 0 :: bs => some (false, bs)
    | 1 :: bs => some (true, bs)
    | _ => none
  Readable _ := True
  decode_encode := by
    intro b bs rest _ hbs
    cases hbs
    cases b <;> rfl

/-! ## Sequences -/

/-- The encodings of a list of values, back to back. -/
def encodeAll (c : Codec α) : List α → Option (List UInt8)
  | [] => some []
  | a :: as => (c.encode a).bind fun x => (encodeAll c as).map fun y => x ++ y

/-- Read exactly `n` values. -/
def decodeMany (c : Codec α) : ℕ → List UInt8 → Option (List α × List UInt8)
  | 0, bs => some ([], bs)
  | n + 1, bs => (c.decode bs).bind fun p => (decodeMany c n p.2).map fun q => (p.1 :: q.1, q.2)

variable {as : List α}

lemma decodeMany_encodeAll (c : Codec α) (rest : List UInt8) (hr : ∀ a ∈ as, c.Readable a)
    (h : encodeAll c as = some bs) : decodeMany c as.length (bs ++ rest) = some (as, rest) := by
  induction as generalizing bs with
  | nil =>
    cases h
    rfl
  | cons a as ih =>
    obtain ⟨x, hx, y, hy, rfl⟩ := bind_map_eq_some.mp h
    rw [append_assoc, length_cons, decodeMany, c.decode_encode _ (hr a mem_cons_self) hx, bind_some,
      ih (fun b hb => hr b (mem_cons_of_mem _ hb)) hy, map_some]

lemma length_of_decodeMany {rest : List UInt8} (h : decodeMany c n bs = some (as, rest)) :
    as.length = n := by
  induction n generalizing bs as with
  | zero =>
    cases h
    rfl
  | succ n ih =>
    obtain ⟨p, _, q, hq, he⟩ := bind_map_eq_some.mp h
    cases he
    rw [length_cons, ih hq]

/-- A vector: its length, then its elements. -/
def list (c : Codec α) : Codec (List α) where
  encode as :=
    if h : as.length < 2 ^ 64 then
      (u64.encode ⟨as.length, h⟩).bind fun x => (encodeAll c as).map fun y => x ++ y
    else none
  decode bs := (u64.decode bs).bind fun p => decodeMany c p.1.val p.2
  Readable as := ∀ a ∈ as, c.Readable a
  decode_encode := by
    intro as bs rest has hbs
    split at hbs
    · obtain ⟨x, hx, hxy⟩ := Option.bind_eq_some_iff.mp hbs
      obtain ⟨y, hy, rfl⟩ := Option.map_eq_some_iff.mp hxy
      rw [append_assoc, u64.decode_encode _ trivial hx, Option.bind_some]
      exact decodeMany_encodeAll c rest has hy
    · cases hbs

/-- A fixed array: its elements alone. -/
def array (c : Codec α) (n : ℕ) : Codec (List.Vector α n) where
  encode as := encodeAll c as.val
  decode bs :=
    match h : decodeMany c n bs with
    | some (as, rest) => some (⟨as, length_of_decodeMany h⟩, rest)
    | none => none
  Readable as := ∀ a ∈ as.val, c.Readable a
  decode_encode := by
    rintro ⟨as, rfl⟩ bs rest has hbs
    have hread := decodeMany_encodeAll c rest has hbs
    split
    · rename_i hsome
      rw [hread] at hsome
      cases hsome
      rfl
    · rename_i hnone
      rw [hread] at hnone
      cases hnone

/-- A byte array: its bytes alone. -/
def bytes (n : ℕ) : Codec (Bytes n) where
  encode b := some b.toList
  decode bs := (Bytes.ofList n (bs.take n)).map fun b => (b, bs.drop n)
  Readable _ := True
  decode_encode := by
    intro b bs rest _ hbs
    cases hbs
    rw [take_left' (Bytes.length_toList b), drop_left' (Bytes.length_toList b),
      Bytes.ofList_toList, Option.map_some]

/-- A string: the length of its UTF-8 bytes, then the bytes. -/
def string : Codec String :=
  (list u8).via (fun s => s.toByteArray.data.toList) (fun bs => String.fromUTF8? ⟨bs.toArray⟩)
    (by
      intro s
      rw [Array.toArray_toList, String.fromUTF8?, dif_pos s.isValidUTF8]
      rfl)

/-- A byte array written with its length. -/
def sizedBytes (n : ℕ) : Codec (Bytes n) :=
  (list u8).via Bytes.toList (Bytes.ofList n) Bytes.ofList_toList

/-- An option: the byte `0`, or the byte `1` and the value. -/
def option (c : Codec α) : Codec (Option α) where
  encode
    | none => some [0]
    | some a => (c.encode a).map fun bs => 1 :: bs
  decode
    | 0 :: bs => some (none, bs)
    | 1 :: bs => (c.decode bs).map fun p => (some p.1, p.2)
    | _ => none
  Readable o := ∀ a ∈ o, c.Readable a
  decode_encode := by
    intro o bs rest ho hbs
    cases o with
    | none =>
      cases hbs
      rfl
    | some a =>
      obtain ⟨x, hx, rfl⟩ := Option.map_eq_some_iff.mp hbs
      show ((c.decode (x ++ rest)).map fun p => (some p.1, p.2)) = some (some a, rest)
      rw [c.decode_encode rest (ho a rfl) hx, Option.map_some]

/-- An optional field without a marker, in a version that has it. -/
def present (c : Codec α) : Codec (Option α) where
  encode o := o.bind c.encode
  decode bs := (c.decode bs).map fun p => (some p.1, p.2)
  Readable o := ∀ a ∈ o, c.Readable a
  decode_encode := by
    intro o bs rest ho hbs
    obtain ⟨a, rfl, ha⟩ := Option.bind_eq_some_iff.mp hbs
    rw [c.decode_encode rest (ho a rfl) ha, Option.map_some]

/-! ## Enumerations -/

/-- One variant of an enumeration: its payload and how it is told from the others. -/
structure Variant (α : Type) where
  /-- What the variant carries. -/
  {Payload : Type}
  /-- How the payload is written. -/
  codec : Codec Payload
  /-- The constructor. -/
  make : Payload → α
  /-- The payload of a value built by this constructor. -/
  match? : α → Option Payload
  /-- The pattern recognises only values of this constructor. -/
  make_match : ∀ {a p}, match? a = some p → make p = a := by
    intro a _ h; cases a <;> cases h; rfl

/-- Write a value as the first listed variant it matches, starting at index `i`. -/
def encodeVariant (i : ℕ) : List (Variant α) → α → Option (List UInt8)
  | [], _ => none
  | v :: vs, a =>
    match v.match? a with
    | some p => (v.codec.encode p).map fun bs => encodeVarint 5 i ++ bs
    | none => encodeVariant (i + 1) vs a

variable {a : α}

lemma encodeVariant_eq_some {vs : List (Variant α)} {i : ℕ} (h : encodeVariant i vs a = some bs) :
    ∃ j v p x, vs[j]? = some v ∧ v.match? a = some p ∧ v.codec.encode p = some x ∧
      bs = encodeVarint 5 (i + j) ++ x := by
  induction vs generalizing i with
  | nil => cases h
  | cons v vs ih =>
    rw [encodeVariant] at h
    split at h
    · rename_i p hp
      obtain ⟨x, hx, rfl⟩ := map_eq_some_iff.mp h
      exact ⟨0, v, p, x, rfl, hp, hx, rfl⟩
    · obtain ⟨j, w, p, x, hw, hp, hx, rfl⟩ := ih h
      exact ⟨j + 1, w, p, x, hw, hp, hx, by rw [show i + (j + 1) = i + 1 + j by omega]⟩

/-- An enumeration: the index of its variant, then the payload. -/
def enum (vs : List (Variant α)) (hvs : vs.length ≤ 2 ^ 32) : Codec α where
  encode a := encodeVariant 0 vs a
  decode bs :=
    (u32.decode bs).bind fun p =>
      match vs[p.1.val]? with
      | some v => (v.codec.decode p.2).map fun q => (v.make q.1, q.2)
      | none => none
  Readable a := ∀ v ∈ vs, ∀ p ∈ v.match? a, v.codec.Readable p
  decode_encode := by
    intro a bs rest ha hbs
    obtain ⟨j, v, p, x, hv, hp, hx, rfl⟩ := encodeVariant_eq_some hbs
    obtain ⟨hj, -⟩ := List.getElem?_eq_some_iff.mp hv
    have hlt : j < 2 ^ 32 := lt_of_lt_of_le hj hvs
    have hread := u32.decode_encode (a := ⟨j, hlt⟩) (x ++ rest) trivial rfl
    have hpay := v.codec.decode_encode rest (ha v (mem_of_getElem? hv) p hp) hx
    rw [Nat.zero_add, append_assoc, hread, Option.bind_some]
    simp only [hv, hpay, Option.map_some, v.make_match hp]

/-! ## Sizes

`FitsIn` says that a value has an encoding and that it is not longer than the bound, so a bound on
a record is the sum of the bounds of its fields. -/

/-- The value has an encoding of at most `n` bytes. -/
def FitsIn (c : Codec α) (a : α) (n : ℕ) : Prop := ∃ bs, c.encode a = some bs ∧ bs.length ≤ n

variable {m : ℕ}

lemma FitsIn.mono (h : c.FitsIn a n) (hle : n ≤ m) : c.FitsIn a m := by
  obtain ⟨bs, hbs, hlen⟩ := h
  exact ⟨bs, hbs, hlen.trans hle⟩

lemma fitsIn_iso {c : Codec β} {f : α → β} {g : β → α} {h : ∀ a, g (f a) = a}
    (ha : c.FitsIn (f a) n) : (c.iso f g h).FitsIn a n := ha

lemma fitsIn_pair {p : α × β} (ha : c.FitsIn p.1 n) (hb : d.FitsIn p.2 m) :
    (pair c d).FitsIn p (n + m) := by
  obtain ⟨x, hx, hn⟩ := ha
  obtain ⟨y, hy, hm⟩ := hb
  refine ⟨x ++ y, encode_pair_eq_some.mpr ⟨x, y, hx, hy, rfl⟩, ?_⟩
  rw [length_append]
  omega

lemma FitsIn.and {b : β} (ha : c.FitsIn a n) (hb : d.FitsIn b m) :
    (pair c d).FitsIn (a, b) (n + m) := fitsIn_pair ha hb

lemma length_encodeVarint_le (k n : ℕ) : (encodeVarint k n).length ≤ k := by
  induction k generalizing n with
  | zero => rfl
  | succ k ih =>
    rw [encodeVarint]
    split
    · simp
    · rw [length_cons]
      exact Nat.succ_le_succ (ih _)

lemma fitsIn_uint {w k : ℕ} {h : 2 ^ w ≤ 128 ^ (k + 1)} (a : Fin (2 ^ w)) :
    (uint w k h).FitsIn a (k + 1) := ⟨_, rfl, length_encodeVarint_le _ _⟩

lemma fitsIn_u16 (a : U16) : u16.FitsIn a 3 := fitsIn_uint a

lemma fitsIn_u32 (a : U32) : u32.FitsIn a 5 := fitsIn_uint a

lemma fitsIn_u64 (a : U64) : u64.FitsIn a 10 := fitsIn_uint a

lemma fitsIn_byte (a : U8) : byte.FitsIn a 1 := ⟨_, rfl, le_rfl⟩

lemma fitsIn_bytes (a : Bytes n) : (bytes n).FitsIn a n := ⟨_, rfl, (Bytes.length_toList a).le⟩

lemma fitsIn_list (hlen : as.length < 2 ^ 64) (h : ∀ a ∈ as, c.FitsIn a n) :
    (list c).FitsIn as (10 + as.length * n) := by
  have hall : ∃ bs, encodeAll c as = some bs ∧ bs.length ≤ as.length * n := by
    clear hlen
    induction as with
    | nil => exact ⟨[], rfl, by simp⟩
    | cons a as ih =>
      obtain ⟨x, hx, hn⟩ := h a mem_cons_self
      obtain ⟨y, hy, hm⟩ := ih fun b hb => h b (mem_cons_of_mem _ hb)
      refine ⟨x ++ y, by rw [encodeAll, hx, hy]; rfl, ?_⟩
      rw [length_append, length_cons, Nat.succ_mul]
      omega
  obtain ⟨y, hy, hm⟩ := hall
  refine ⟨encodeVarint 10 as.length ++ y, ?_, ?_⟩
  · show (if h : as.length < 2 ^ 64 then
      (u64.encode ⟨as.length, h⟩).bind fun x => (encodeAll c as).map fun y => x ++ y else none) = _
    rw [dif_pos hlen, hy]
    rfl
  · have := length_encodeVarint_le 10 as.length
    rw [length_append]
    omega

/-- A list of bytes takes its length and one byte each. -/
lemma fitsIn_list_u8 {as : List UInt8} (hlen : as.length < 2 ^ 64) :
    (list u8).FitsIn as (10 + as.length) := by
  have h := fitsIn_list (c := u8) hlen fun a _ => (⟨_, rfl, le_rfl⟩ : u8.FitsIn a 1)
  rwa [Nat.mul_one] at h

lemma fitsIn_sizedBytes (hn : n < 2 ^ 64) (a : Bytes n) : (sizedBytes n).FitsIn a (10 + n) := by
  have hlen : a.toList.length = n := Bytes.length_toList a
  have h : (list u8).FitsIn a.toList (10 + a.toList.length) :=
    fitsIn_list_u8 (by rw [hlen]; exact hn)
  rw [hlen] at h
  exact h

lemma fitsIn_string {s : String} (hlen : s.utf8ByteSize < 2 ^ 64) :
    string.FitsIn s (10 + s.utf8ByteSize) := by
  have h : (list u8).FitsIn s.toByteArray.data.toList (10 + s.toByteArray.data.toList.length) :=
    fitsIn_list_u8 hlen
  exact h

lemma fitsIn_bool (b : Bool) : bool.FitsIn b 1 := ⟨_, rfl, le_rfl⟩

/-- A value of an enumeration takes the index and what its variant carries. -/
lemma fitsIn_enum {vs : List (Variant α)} {hvs : vs.length ≤ 2 ^ 32}
    (hmatch : ∃ v ∈ vs, (v.match? a).isSome)
    (hfits : ∀ v ∈ vs, ∀ p ∈ v.match? a, v.codec.FitsIn p n) : (enum vs hvs).FitsIn a (5 + n) := by
  suffices h : ∀ i, ∃ bs, encodeVariant i vs a = some bs ∧ bs.length ≤ 5 + n from h 0
  clear hvs
  induction vs with
  | nil =>
    obtain ⟨v, hv, -⟩ := hmatch
    cases hv
  | cons v vs ih =>
    intro i
    rw [encodeVariant]
    cases hp : v.match? a with
    | some p =>
      obtain ⟨x, hx, hn⟩ := hfits v mem_cons_self p hp
      refine ⟨encodeVarint 5 i ++ x, by simp [hx], ?_⟩
      have := length_encodeVarint_le 5 i
      rw [length_append]
      omega
    | none =>
      refine ih ?_ (fun w hw => hfits w (mem_cons_of_mem _ hw)) (i + 1)
      obtain ⟨w, hw, hsome⟩ := hmatch
      rcases mem_cons.mp hw with rfl | hw
      · rw [hp] at hsome
        cases hsome
      · exact ⟨w, hw, hsome⟩

/-! ## The wire functions -/

variable (c : Codec α)

/-- Read a value from the front of a buffer; what follows it is ignored. -/
def fromBytes (bs : List UInt8) : Option α := (c.decode bs).map Prod.fst

lemma fromBytes_encode (ha : c.Readable a) (h : c.encode a = some bs) :
    c.fromBytes bs = some a := by
  have hread := c.decode_encode [] ha h
  rw [append_nil] at hread
  rw [fromBytes, hread, map_some]

/-- Two readable values with one encoding are equal. -/
lemma encode_injective {b : α} (hra : c.Readable a) (hrb : c.Readable b) (ha : c.encode a = some bs)
    (hb : c.encode b = some bs) : a = b := by
  have h := c.fromBytes_encode hra ha
  rw [c.fromBytes_encode hrb hb] at h
  exact (some_inj.mp h).symm

end Codec

end Framework

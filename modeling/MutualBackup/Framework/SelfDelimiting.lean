import MutualBackup.Framework.Codec

/-!
# Self-delimiting codes

The law of a `Codec` speaks of readable values.  Two more facts are wanted of a wire format.  Its
writer is unambiguous on all values, also on those that no reader accepts: from an encoding followed
by anything, the value is determined.  And its reader is sound: it returns readable values only, so
that being readable is exactly what survives the round trip.

`Exact` is the two facts together, with the limits of the reader said of the values that have an
encoding.  It is closed under the combinators, with one lemma each, and a codec that reads
everything has it without limits (`Exact.of_readable`), so that only the parts of a record around a
limit have to be followed.  `SelfDelimiting` is what follows for the users of a format.
-/

namespace Framework

open List Option

namespace Codec

variable {α β : Type}

/-- The writer is unambiguous, the reader is sound, and what it reads of the values with an encoding
is what is within the limits. -/
structure Exact (c : Codec α) (Limits : α → Prop) : Prop where
  unambiguous : ∀ {a b : α} {x y s t : List UInt8}, c.encode a = some x → c.encode b = some y →
    x ++ s = y ++ t → a = b
  sound : ∀ {bs rest : List UInt8} {a : α}, c.decode bs = some (a, rest) → c.Readable a
  limits : ∀ {a : α} {x : List UInt8}, c.encode a = some x → (c.Readable a ↔ Limits a)

/-- **Self-delimiting within limits.**  A value is read back in front of every suffix exactly when
it is within the limits; and for all values, within them or not, one encoding is of one value and no
encoding is a proper initial part of another. -/
structure SelfDelimiting (c : Codec α) (Limits : α → Prop) : Prop where
  round_trip : ∀ {a : α} {bs : List UInt8} (rest : List UInt8), c.encode a = some bs →
    (c.decode (bs ++ rest) = some (a, rest) ↔ Limits a)
  injective : ∀ {a b : α} {bs : List UInt8}, c.encode a = some bs → c.encode b = some bs → a = b
  eq_of_isPrefix : ∀ {a b : α} {bs cs : List UInt8}, c.encode a = some bs → c.encode b = some cs →
    bs <+: cs → bs = cs

variable {as : List α} {n : ℕ}

section Exact

variable {c : Codec α} {d : Codec β} {L : α → Prop} {M : β → Prop}

lemma Exact.selfDelimiting (h : c.Exact L) : c.SelfDelimiting L where
  round_trip rest hbs := by
    rw [← h.limits hbs]
    exact ⟨h.sound, fun hread => c.decode_encode rest hread hbs⟩
  injective ha hb := h.unambiguous (s := []) (t := []) ha hb rfl
  eq_of_isPrefix := by
    rintro a b bs _ ha hb ⟨t, rfl⟩
    obtain rfl := h.unambiguous (s := t) (t := []) ha hb (append_nil _).symm
    exact Option.some.inj (ha.symm.trans hb)

/-! ## Closure -/

/-- The limits in other words. -/
lemma Exact.congr (h : c.Exact L) {N : α → Prop} (hlimits : ∀ a, L a ↔ N a) : c.Exact N where
  unambiguous := h.unambiguous
  sound := h.sound
  limits hx := (h.limits hx).trans (hlimits _)

/-- A codec that reads everything it writes. -/
lemma Exact.of_readable (h : ∀ a, c.Readable a) : c.Exact fun _ => True where
  unambiguous := by
    intro a b x y s t ha hb heq
    have hread := c.decode_encode s (h a) ha
    rw [heq, c.decode_encode t (h b) hb] at hread
    exact (Prod.mk.inj (Option.some.inj hread)).1.symm
  sound _ := h _
  limits _ := iff_true_intro (h _)

lemma Exact.iso (hd : d.Exact M) {f : α → β} {g : β → α} {h : ∀ a, g (f a) = a}
    (hinv : ∀ b, f (g b) = b) : (d.iso f g h).Exact fun a => M (f a) where
  unambiguous := by
    intro a b x y s t ha hb heq
    have hf : f a = f b := hd.unambiguous ha hb heq
    rw [← h a, hf, h b]
  sound := by
    intro bs rest a hread
    obtain ⟨p, hp, hpa⟩ := bind_eq_some_iff.mp hread
    obtain ⟨rfl, rfl⟩ := Prod.mk.inj (Option.some.inj hpa)
    show d.Readable (f (g p.1))
    rw [hinv]
    exact hd.sound hp
  limits hx := hd.limits hx

lemma Exact.dep {e : α → Codec β} (hc : c.Exact L) (he : ∀ a, (e a).Exact M) :
    (dep c e).Exact fun p => L p.1 ∧ M p.2 where
  unambiguous := by
    rintro ⟨a, a'⟩ ⟨b, b'⟩ x y s t ha hb heq
    obtain ⟨x₁, hx₁, x₂, hx₂, rfl⟩ := bind_map_eq_some.mp ha
    obtain ⟨y₁, hy₁, y₂, hy₂, rfl⟩ := bind_map_eq_some.mp hb
    rw [append_assoc, append_assoc] at heq
    obtain rfl : a = b := hc.unambiguous hx₁ hy₁ heq
    obtain rfl : x₁ = y₁ := Option.some.inj (hx₁.symm.trans hy₁)
    obtain rfl : a' = b' := (he a).unambiguous hx₂ hy₂ (append_cancel_left heq)
    rfl
  sound := by
    intro bs rest a hread
    obtain ⟨p, hp, q, hq, heq⟩ := bind_map_eq_some.mp hread
    obtain ⟨rfl, -⟩ := Prod.mk.inj heq
    exact ⟨hc.sound hp, (he p.1).sound hq⟩
  limits := by
    intro a x ha
    obtain ⟨x₁, hx₁, x₂, hx₂, rfl⟩ := bind_map_eq_some.mp ha
    exact and_congr (hc.limits hx₁) ((he a.1).limits hx₂)

lemma Exact.pair (hc : c.Exact L) (hd : d.Exact M) :
    (pair c d).Exact fun p => L p.1 ∧ M p.2 := hc.dep fun _ => hd

/-- A field without limits in front. -/
lemma Exact.after (hd : d.Exact M) (hc : ∀ a, c.Readable a) :
    (Codec.pair c d).Exact fun p => M p.2 :=
  ((Exact.of_readable hc).pair hd).congr fun _ => by rw [true_and]

/-- A field without limits behind. -/
lemma Exact.before (hc : c.Exact L) (hd : ∀ b, d.Readable b) :
    (Codec.pair c d).Exact fun p => L p.1 :=
  (hc.pair (Exact.of_readable hd)).congr fun _ => by rw [and_true]

lemma Exact.const [DecidableEq α] (a : α) (N : α → Prop) (hN : N a) : (const a).Exact N where
  unambiguous := (Exact.of_readable (c := Codec.const a) fun _ => trivial).unambiguous
  sound _ := trivial
  limits := by
    intro b x hx
    by_cases hb : b = a
    · rw [hb]
      exact iff_of_true trivial hN
    · rw [show (Codec.const a).encode b = none from if_neg hb] at hx
      cases hx

lemma Exact.never (N : α → Prop) : (never : Codec α).Exact N where
  unambiguous ha := by cases ha
  sound h := by cases h
  limits hx := by cases hx

lemma Exact.bounded (hc : c.Exact L) (P : α → Prop) [DecidablePred P] :
    (c.bounded P).Exact fun a => L a ∧ P a where
  unambiguous := hc.unambiguous
  sound := by
    intro bs rest a hread
    obtain ⟨hdecode, hP⟩ := filter_eq_some_iff.mp hread
    exact ⟨hc.sound hdecode, of_decide_eq_true hP⟩
  limits hx := and_congr_left fun _ => hc.limits hx

/-- The only limit of the reader is the one that is set here. -/
lemma Exact.bounded_of_readable (h : ∀ a, c.Readable a) (P : α → Prop) [DecidablePred P] :
    (c.bounded P).Exact P :=
  ((Exact.of_readable h).bounded P).congr fun _ => by rw [true_and]

variable {x s t : List UInt8}

lemma encodeAll_unambiguous (hc : c.Exact L) {bs : List α} {y : List UInt8}
    (hlength : as.length = bs.length) (ha : encodeAll c as = some x) (hb : encodeAll c bs = some y)
    (heq : x ++ s = y ++ t) : as = bs := by
  induction as generalizing bs x y with
  | nil => exact (length_eq_zero_iff.mp hlength.symm).symm
  | cons a as ih =>
    cases bs with
    | nil => cases hlength
    | cons b bs =>
      obtain ⟨x₁, hx₁, x₂, hx₂, rfl⟩ := bind_map_eq_some.mp ha
      obtain ⟨y₁, hy₁, y₂, hy₂, rfl⟩ := bind_map_eq_some.mp hb
      rw [append_assoc, append_assoc] at heq
      obtain rfl : a = b := hc.unambiguous hx₁ hy₁ heq
      obtain rfl : x₁ = y₁ := Option.some.inj (hx₁.symm.trans hy₁)
      rw [ih (Nat.succ.inj hlength) hx₂ hy₂ (append_cancel_left heq)]

lemma exists_encode_of_encodeAll (h : encodeAll c as = some x) :
    ∀ a ∈ as, ∃ y, c.encode a = some y := by
  induction as generalizing x with
  | nil => exact fun a ha => absurd ha not_mem_nil
  | cons b as ih =>
    obtain ⟨x₁, hx₁, x₂, hx₂, -⟩ := bind_map_eq_some.mp h
    intro a ha
    rcases mem_cons.mp ha with rfl | ha
    · exact ⟨x₁, hx₁⟩
    · exact ih hx₂ a ha

lemma sound_decodeMany (hc : c.Exact L) {bs rest : List UInt8}
    (h : decodeMany c n bs = some (as, rest)) : ∀ a ∈ as, c.Readable a := by
  induction n generalizing bs as with
  | zero =>
    obtain ⟨rfl, -⟩ := Prod.mk.inj (Option.some.inj h)
    exact fun a ha => absurd ha not_mem_nil
  | succ n ih =>
    obtain ⟨p, hp, q, hq, heq⟩ := bind_map_eq_some.mp h
    obtain ⟨rfl, rfl⟩ := Prod.mk.inj heq
    intro a ha
    rcases mem_cons.mp ha with rfl | ha
    · exact hc.sound hp
    · exact ih hq a ha

/-- The writer of a vector: the length first, then the elements. -/
lemma encode_list_eq_some :
    (list c).encode as = some x ↔ as.length < 2 ^ 64 ∧ ∃ y, encodeAll c as = some y ∧
      x = encodeVarint 10 as.length ++ y := by
  show (if h : as.length < 2 ^ 64 then
    (u64.encode ⟨as.length, h⟩).bind fun x => (encodeAll c as).map fun y => x ++ y else none) =
      some x ↔ _
  constructor
  · intro h
    split at h
    · rename_i hlength
      obtain ⟨x₁, hx₁, y, hy, rfl⟩ := bind_map_eq_some.mp h
      obtain rfl := Option.some.inj hx₁
      exact ⟨hlength, y, hy, rfl⟩
    · cases h
  · rintro ⟨hlength, y, hy, rfl⟩
    rw [dif_pos hlength, hy]
    rfl

/-- The number of elements is determined by the front of an encoding. -/
lemma length_of_encode_list {m : ℕ} (hm : m < 2 ^ 64) (hn : n < 2 ^ 64)
    (heq : encodeVarint 10 m ++ s = encodeVarint 10 n ++ t) : m = n := by
  have hu64 := Exact.of_readable (c := u64) fun _ => trivial
  have h := hu64.unambiguous (a := (⟨m, hm⟩ : U64)) (b := ⟨n, hn⟩) rfl rfl heq
  exact Fin.mk.inj h

section

variable (hc : c.Exact L)

include hc

lemma unambiguous_list {bs : List α} {y : List UInt8} (ha : (list c).encode as = some x)
    (hb : (list c).encode bs = some y) (heq : x ++ s = y ++ t) : as = bs := by
  obtain ⟨ham, x₂, hx₂, rfl⟩ := encode_list_eq_some.mp ha
  obtain ⟨hbm, y₂, hy₂, rfl⟩ := encode_list_eq_some.mp hb
  rw [append_assoc, append_assoc] at heq
  have hlength := length_of_encode_list ham hbm heq
  rw [hlength] at heq
  exact encodeAll_unambiguous hc hlength hx₂ hy₂ (append_cancel_left heq)

lemma Exact.list : (list c).Exact fun as => ∀ a ∈ as, L a where
  unambiguous := unambiguous_list hc
  sound := by
    intro bs rest as hread
    obtain ⟨p, -, hp⟩ := bind_eq_some_iff.mp hread
    exact sound_decodeMany hc hp
  limits := by
    intro as x hx
    obtain ⟨-, y, hy, -⟩ := encode_list_eq_some.mp hx
    refine forall₂_congr fun a ha => ?_
    obtain ⟨z, hz⟩ := exists_encode_of_encodeAll hy a ha
    exact hc.limits hz

lemma Exact.option : (option c).Exact fun o => ∀ a ∈ o, L a where
  unambiguous := by
    intro a b x y s t ha hb heq
    cases a with
    | none =>
      obtain rfl : [0] = x := Option.some.inj ha
      cases b with
      | none => rfl
      | some b =>
        obtain ⟨y, -, rfl⟩ := map_eq_some_iff.mp hb
        cases (List.cons.inj heq).1
    | some a =>
      obtain ⟨x, hx, rfl⟩ := map_eq_some_iff.mp ha
      cases b with
      | none =>
        obtain rfl : [0] = y := Option.some.inj hb
        cases (List.cons.inj heq).1
      | some b =>
        obtain ⟨y, hy, rfl⟩ := map_eq_some_iff.mp hb
        rw [hc.unambiguous hx hy (List.cons.inj heq).2]
  sound := by
    intro bs rest o hread a ha
    obtain rfl := mem_def.mp ha
    simp only [Codec.option] at hread
    split at hread
    · cases (Prod.mk.inj (Option.some.inj hread)).1
    · obtain ⟨p, hp, heq⟩ := map_eq_some_iff.mp hread
      obtain ⟨hfirst, -⟩ := Prod.mk.inj heq
      obtain rfl := Option.some.inj hfirst
      exact hc.sound hp
    · cases hread
  limits := by
    intro o x hx
    refine forall₂_congr fun a ha => ?_
    obtain rfl := mem_def.mp ha
    obtain ⟨y, hy, -⟩ := map_eq_some_iff.mp hx
    exact hc.limits hy

lemma Exact.present : (present c).Exact fun o => ∀ a ∈ o, L a where
  unambiguous := by
    intro a b x y s t ha hb heq
    obtain ⟨a, rfl, hx⟩ := bind_eq_some_iff.mp ha
    obtain ⟨b, rfl, hy⟩ := bind_eq_some_iff.mp hb
    rw [hc.unambiguous hx hy heq]
  sound := by
    intro bs rest o hread a ha
    obtain ⟨p, hp, heq⟩ := map_eq_some_iff.mp hread
    obtain ⟨hfirst, -⟩ := Prod.mk.inj heq
    rw [← hfirst] at ha
    obtain rfl := Option.some.inj ha
    exact hc.sound hp
  limits := by
    intro o x hx
    obtain ⟨a, rfl, ha⟩ := bind_eq_some_iff.mp hx
    refine forall₂_congr fun b hb => ?_
    obtain rfl := Option.some.inj hb
    exact hc.limits ha

end

/-- An enumeration, with the limits of each variant said of the value it builds. -/
lemma Exact.enum {vs : List (Variant α)} {hvs : vs.length ≤ 2 ^ 32}
    (hexact : ∀ v ∈ vs, ∃ N, v.codec.Exact N)
    (hlimits : ∀ v ∈ vs, ∀ p, v.codec.Readable p ↔ L (v.make p)) : (enum vs hvs).Exact L where
  unambiguous := by
    intro a b x y s t ha hb heq
    obtain ⟨j, v, p, x, hv, hp, hx, rfl⟩ := encodeVariant_eq_some ha
    obtain ⟨k, w, q, y, hw, hq, hy, rfl⟩ := encodeVariant_eq_some hb
    have hj : j < 2 ^ 32 := (List.getElem?_eq_some_iff.mp hv).1.trans_le hvs
    have hk : k < 2 ^ 32 := (List.getElem?_eq_some_iff.mp hw).1.trans_le hvs
    rw [Nat.zero_add, Nat.zero_add, append_assoc, append_assoc] at heq
    have hu32 := Exact.of_readable (c := u32) fun _ => trivial
    obtain rfl : j = k := Fin.mk.inj
      (hu32.unambiguous (a := (⟨j, hj⟩ : U32)) (b := ⟨k, hk⟩) rfl rfl heq)
    obtain rfl : v = w := Option.some.inj (hv.symm.trans hw)
    obtain ⟨N, hN⟩ := hexact v (mem_of_getElem? hv)
    have hpq := hN.unambiguous hx hy (append_cancel_left heq)
    rw [← v.make_match hp, hpq, v.make_match hq]
  sound := by
    intro bs rest a hread
    obtain ⟨p, -, hp⟩ := bind_eq_some_iff.mp hread
    split at hp
    · rename_i v hv
      obtain ⟨q, hq, heq⟩ := map_eq_some_iff.mp hp
      obtain ⟨rfl, -⟩ := Prod.mk.inj heq
      have hmem := mem_of_getElem? hv
      obtain ⟨N, hN⟩ := hexact v hmem
      have hL := (hlimits v hmem q.1).mp (hN.sound hq)
      intro w hw r hr
      rw [hlimits w hw r, w.make_match hr]
      exact hL
    · cases hp
  limits := by
    intro a x hx
    obtain ⟨j, v, p, x, hv, hp, -, -⟩ := encodeVariant_eq_some hx
    constructor
    · intro hread
      have hmem := mem_of_getElem? hv
      rw [← v.make_match hp]
      exact (hlimits v hmem p).mp (hread v hmem p hp)
    · intro hL w hw r hr
      rw [hlimits w hw r, w.make_match hr]
      exact hL

end Exact

/-! ## What is readable -/

section Readable

variable {c : Codec α} {d : Codec β}

@[simp] lemma readable_iso {f : β → α} {g : α → β} {h : ∀ b, g (f b) = b} {b : β} :
    (c.iso f g h).Readable b ↔ c.Readable (f b) := Iff.rfl

@[simp] lemma readable_dep {e : α → Codec β} {p : α × β} :
    (dep c e).Readable p ↔ c.Readable p.1 ∧ (e p.1).Readable p.2 := Iff.rfl

@[simp] lemma readable_pair {p : α × β} :
    (pair c d).Readable p ↔ c.Readable p.1 ∧ d.Readable p.2 := Iff.rfl

variable {a : α}

@[simp] lemma readable_const [DecidableEq α] {b : α} : (const a).Readable b := trivial

@[simp] lemma readable_bounded {P : α → Prop} [DecidablePred P] :
    (c.bounded P).Readable a ↔ c.Readable a ∧ P a := Iff.rfl

@[simp] lemma readable_u16 {n : U16} : u16.Readable n := trivial

@[simp] lemma readable_u32 {n : U32} : u32.Readable n := trivial

@[simp] lemma readable_u64 {n : U64} : u64.Readable n := trivial

@[simp] lemma readable_u8 {n : UInt8} : u8.Readable n := trivial

@[simp] lemma readable_bool {b : Bool} : bool.Readable b := trivial

@[simp] lemma readable_bytes {b : Bytes n} : (bytes n).Readable b := trivial

@[simp] lemma readable_list : (list c).Readable as ↔ ∀ a ∈ as, c.Readable a := Iff.rfl

@[simp] lemma readable_array {as : List.Vector α n} :
    (array c n).Readable as ↔ ∀ a ∈ as.val, c.Readable a := Iff.rfl

@[simp] lemma readable_string {s : String} : string.Readable s := fun _ _ => trivial

@[simp] lemma readable_sizedBytes {b : Bytes n} : (sizedBytes n).Readable b := fun _ _ => trivial

@[simp] lemma readable_option {o : Option α} :
    (option c).Readable o ↔ ∀ a ∈ o, c.Readable a := Iff.rfl

@[simp] lemma readable_present {o : Option α} :
    (present c).Readable o ↔ ∀ a ∈ o, c.Readable a := Iff.rfl

@[simp] lemma readable_enum {vs : List (Variant α)} {hvs : vs.length ≤ 2 ^ 32} :
    (enum vs hvs).Readable a ↔ ∀ v ∈ vs, ∀ p ∈ v.match? a, v.codec.Readable p := Iff.rfl

end Readable

end Codec

end Framework

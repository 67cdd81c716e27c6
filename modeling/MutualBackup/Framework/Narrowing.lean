import MutualBackup.Framework.Codec
import Mathlib.Data.List.Forall2

/-!
# Readers that narrow other readers

A reader written beside an existing one, with limits on some fields and perhaps with a type of its
own that mirrors the other, should return what the other returns and refuse only what is over its
limits.  `Narrows c d f P` says so: through the map `f` between the two types, `c` returns exactly
the values of `d` that satisfy `P`, with the same rest of the input.  It is closed under the
combinators; for an enumeration the variants have to agree one by one, in their order.
-/

namespace Framework

namespace Codec

open Option

variable {α β γ δ : Type}

/-- The reader `c`, seen through `f`, is the reader `d` where its value satisfies `P`. -/
def Narrows (c : Codec β) (d : Codec α) (f : β → α) (P : α → Prop) : Prop :=
  ∀ bs a rest, (∃ b, c.decode bs = some (b, rest) ∧ f b = a) ↔ d.decode bs = some (a, rest) ∧ P a

variable {c : Codec β} {d : Codec α} {f : β → α} {P : α → Prop}

lemma Narrows.refl (d : Codec α) : Narrows d d id fun _ => True := by
  intro bs a rest
  constructor
  · rintro ⟨b, hb, rfl⟩
    exact ⟨hb, trivial⟩
  · rintro ⟨ha, -⟩
    exact ⟨a, ha, rfl⟩

lemma Narrows.congr (h : Narrows c d f P) {Q : α → Prop} (hPQ : ∀ a, P a ↔ Q a) :
    Narrows c d f Q := by
  intro bs a rest
  rw [h bs a rest, hPQ]

/-- A limit on what is read. -/
lemma Narrows.bounded (h : Narrows c d f P) {R : β → Prop} [DecidablePred R] {Q : α → Prop}
    (hRQ : ∀ b, R b ↔ Q (f b)) : Narrows (c.bounded R) d f fun a => P a ∧ Q a := by
  intro bs a rest
  constructor
  · rintro ⟨b, hb, rfl⟩
    obtain ⟨hdecode, hR⟩ := filter_eq_some_iff.mp hb
    obtain ⟨hd, hP⟩ := (h bs (f b) rest).mp ⟨b, hdecode, rfl⟩
    exact ⟨hd, hP, (hRQ b).mp (of_decide_eq_true hR)⟩
  · rintro ⟨hd, hP, hQ⟩
    obtain ⟨b, hdecode, rfl⟩ := (h bs a rest).mpr ⟨hd, hP⟩
    exact ⟨b, filter_eq_some_iff.mpr ⟨hdecode, decide_eq_true ((hRQ b).mpr hQ)⟩, rfl⟩

/-- A limit on the reader itself. -/
lemma Narrows.limit (d : Codec α) (P : α → Prop) [DecidablePred P] :
    Narrows (d.bounded P) d id P :=
  ((Narrows.refl d).bounded fun _ => Iff.rfl).congr fun _ => by rw [true_and]

section

variable (h : Narrows c d f P)

include h

lemma Narrows.pair {c' : Codec δ} {d' : Codec γ} {f' : δ → γ} {P' : γ → Prop}
    (h' : Narrows c' d' f' P') :
    Narrows (pair c c') (pair d d') (Prod.map f f') fun p => P p.1 ∧ P' p.2 := by
  rintro bs ⟨a, a'⟩ rest
  constructor
  · rintro ⟨⟨b, b'⟩, hread, heq⟩
    obtain ⟨p, hp, q, hq, hb⟩ := bind_map_eq_some.mp hread
    obtain ⟨hbb, rfl⟩ := Prod.mk.inj hb
    obtain ⟨rfl, rfl⟩ := Prod.mk.inj hbb
    obtain ⟨rfl, rfl⟩ := Prod.mk.inj heq
    obtain ⟨hd, hP⟩ := (h bs (f p.1) p.2).mp ⟨p.1, hp, rfl⟩
    obtain ⟨hd', hP'⟩ := (h' p.2 (f' q.1) q.2).mp ⟨q.1, hq, rfl⟩
    exact ⟨bind_map_eq_some.mpr ⟨_, hd, _, hd', rfl⟩, hP, hP'⟩
  · rintro ⟨hread, hP, hP'⟩
    obtain ⟨p, hp, q, hq, hb⟩ := bind_map_eq_some.mp hread
    obtain ⟨hbb, rfl⟩ := Prod.mk.inj hb
    obtain ⟨rfl, rfl⟩ := Prod.mk.inj hbb
    obtain ⟨b, hb, hfb⟩ := (h bs p.1 p.2).mpr ⟨hp, hP⟩
    obtain ⟨b', hb', hfb'⟩ := (h' p.2 q.1 q.2).mpr ⟨hq, hP'⟩
    refine ⟨(b, b'), bind_map_eq_some.mpr ⟨_, hb, _, hb', rfl⟩, ?_⟩
    show (f b, f' b') = _
    rw [hfb, hfb']

/-- The same field in front. -/
lemma Narrows.after (e : Codec γ) : Narrows (Codec.pair e c) (Codec.pair e d) (Prod.map id f)
    fun p => P p.2 :=
  ((Narrows.refl e).pair h).congr fun _ => by rw [true_and]

/-- Records on both sides. -/
lemma Narrows.iso {F : δ → β} {G : β → δ} {hG : ∀ b, G (F b) = b} {F' : γ → α} {G' : α → γ}
    {hG' : ∀ a, G' (F' a) = a} {g : δ → γ} {Q : γ → Prop} (hg : ∀ b, g (G b) = G' (f b))
    (hQ : ∀ a, P a ↔ Q (G' a)) : Narrows (c.iso F G hG) (d.iso F' G' hG') g Q := by
  intro bs a rest
  constructor
  · rintro ⟨b, hread, rfl⟩
    obtain ⟨p, hp, hb⟩ := bind_eq_some_iff.mp hread
    obtain ⟨rfl, rfl⟩ := Prod.mk.inj (Option.some.inj hb)
    obtain ⟨hd, hP⟩ := (h bs (f p.1) p.2).mp ⟨p.1, hp, rfl⟩
    rw [hg]
    exact ⟨bind_eq_some_iff.mpr ⟨_, hd, rfl⟩, (hQ _).mp hP⟩
  · rintro ⟨hread, hQa⟩
    obtain ⟨p, hp, ha⟩ := bind_eq_some_iff.mp hread
    obtain ⟨rfl, rfl⟩ := Prod.mk.inj (Option.some.inj ha)
    obtain ⟨b, hb, hfb⟩ := (h bs p.1 p.2).mpr ⟨hp, (hQ _).mpr hQa⟩
    exact ⟨G b, bind_eq_some_iff.mpr ⟨_, hb, rfl⟩, by rw [hg, hfb]⟩

lemma narrows_decodeMany (n : ℕ) (bs : List UInt8) (as : List α) (rest : List UInt8) :
    (∃ xs, decodeMany c n bs = some (xs, rest) ∧ xs.map f = as) ↔
      decodeMany d n bs = some (as, rest) ∧ ∀ a ∈ as, P a := by
  induction n generalizing bs as with
  | zero =>
    constructor
    · rintro ⟨xs, hxs, rfl⟩
      obtain ⟨rfl, rfl⟩ := Prod.mk.inj (Option.some.inj hxs)
      exact ⟨rfl, fun a ha => absurd ha List.not_mem_nil⟩
    · rintro ⟨has, -⟩
      obtain ⟨rfl, rfl⟩ := Prod.mk.inj (Option.some.inj has)
      exact ⟨[], rfl, rfl⟩
  | succ n ih =>
    constructor
    · rintro ⟨xs, hxs, rfl⟩
      obtain ⟨p, hp, q, hq, heq⟩ := bind_map_eq_some.mp hxs
      obtain ⟨rfl, rfl⟩ := Prod.mk.inj heq
      obtain ⟨hd, hP⟩ := (h bs (f p.1) p.2).mp ⟨p.1, hp, rfl⟩
      obtain ⟨hmany, hall⟩ := (ih p.2 (q.1.map f)).mp ⟨q.1, hq, rfl⟩
      exact ⟨bind_map_eq_some.mpr ⟨_, hd, _, hmany, rfl⟩, List.forall_mem_cons.mpr ⟨hP, hall⟩⟩
    · rintro ⟨has, hall⟩
      obtain ⟨p, hp, q, hq, heq⟩ := bind_map_eq_some.mp has
      obtain ⟨rfl, rfl⟩ := Prod.mk.inj heq
      obtain ⟨hP, hall⟩ := List.forall_mem_cons.mp hall
      obtain ⟨b, hb, hfb⟩ := (h bs p.1 p.2).mpr ⟨hp, hP⟩
      obtain ⟨xs, hxs, hmap⟩ := (ih p.2 q.1).mpr ⟨hq, hall⟩
      refine ⟨b :: xs, bind_map_eq_some.mpr ⟨_, hb, _, hxs, rfl⟩, ?_⟩
      rw [List.map_cons, hfb, hmap]

lemma Narrows.list : Narrows (list c) (list d) (List.map f) fun as => ∀ a ∈ as, P a := by
  intro bs as rest
  constructor
  · rintro ⟨xs, hread, hmap⟩
    obtain ⟨p, hp, hmany⟩ := bind_eq_some_iff.mp hread
    obtain ⟨hd, hall⟩ := (narrows_decodeMany h p.1.val p.2 as rest).mp ⟨xs, hmany, hmap⟩
    exact ⟨bind_eq_some_iff.mpr ⟨p, hp, hd⟩, hall⟩
  · rintro ⟨hread, hall⟩
    obtain ⟨p, hp, hmany⟩ := bind_eq_some_iff.mp hread
    obtain ⟨xs, hxs, hmap⟩ := (narrows_decodeMany h p.1.val p.2 as rest).mpr ⟨hmany, hall⟩
    exact ⟨xs, bind_eq_some_iff.mpr ⟨p, hp, hxs⟩, hmap⟩

end

/-- One variant mirrors another: its payload narrows the other's, and the map takes what it builds
to what the other builds. -/
def Variant.Mirrors (f : β → α) (P : α → Prop) (v : Variant β) (w : Variant α) : Prop :=
  ∃ g Q, Narrows v.codec w.codec g Q ∧ (∀ q, f (v.make q) = w.make (g q)) ∧ ∀ q, P (w.make q) ↔ Q q

/-- Enumerations whose variants mirror each other in their order. -/
lemma Narrows.enum {vs : List (Variant β)} {ws : List (Variant α)} {hvs : vs.length ≤ 2 ^ 32}
    {hws : ws.length ≤ 2 ^ 32} (h : List.Forall₂ (Variant.Mirrors f P) vs ws) :
    Narrows (enum vs hvs) (enum ws hws) f P := by
  have hat : ∀ (i : ℕ) v, vs[i]? = some v → ∃ w, ws[i]? = some w ∧ Variant.Mirrors f P v w := by
    intro i v hv
    obtain ⟨hi, rfl⟩ := List.getElem?_eq_some_iff.mp hv
    have hi' : i < ws.length := h.length_eq ▸ hi
    exact ⟨ws[i], List.getElem?_eq_getElem hi', h.get hi hi'⟩
  intro bs a rest
  constructor
  · rintro ⟨b, hread, rfl⟩
    obtain ⟨p, hp, hpv⟩ := bind_eq_some_iff.mp hread
    split at hpv
    · rename_i v hv
      obtain ⟨q, hq, heq⟩ := map_eq_some_iff.mp hpv
      obtain ⟨rfl, rfl⟩ := Prod.mk.inj heq
      obtain ⟨w, hw, g, Q, hnarrow, hmake, hlimit⟩ := hat _ v hv
      obtain ⟨hd, hQ⟩ := (hnarrow p.2 (g q.1) q.2).mp ⟨q.1, hq, rfl⟩
      refine ⟨bind_eq_some_iff.mpr ⟨p, hp, ?_⟩, ?_⟩
      · rw [hw, hmake]
        exact map_eq_some_iff.mpr ⟨_, hd, rfl⟩
      · rw [hmake]
        exact (hlimit _).mpr hQ
    · cases hpv
  · rintro ⟨hread, hP⟩
    obtain ⟨p, hp, hpw⟩ := bind_eq_some_iff.mp hread
    split at hpw
    · rename_i w hw
      obtain ⟨q, hq, heq⟩ := map_eq_some_iff.mp hpw
      obtain ⟨rfl, rfl⟩ := Prod.mk.inj heq
      obtain ⟨hi, -⟩ := List.getElem?_eq_some_iff.mp hw
      have hi' : p.1.val < vs.length := h.length_eq ▸ hi
      have hv := List.getElem?_eq_getElem hi'
      obtain ⟨w', hw', g, Q, hnarrow, hmake, hlimit⟩ := hat _ _ hv
      obtain rfl : w' = w := Option.some.inj (hw'.symm.trans hw)
      obtain ⟨r, hr, hgr⟩ := (hnarrow p.2 q.1 q.2).mpr ⟨hq, (hlimit _).mp hP⟩
      refine ⟨vs[p.1.val].make r, bind_eq_some_iff.mpr ⟨p, hp, ?_⟩, ?_⟩
      · rw [hv]
        exact map_eq_some_iff.mpr ⟨_, hr, rfl⟩
      · rw [hmake, hgr]
    · cases hpw

end Codec

end Framework

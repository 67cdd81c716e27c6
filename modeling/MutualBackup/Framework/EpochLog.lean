import Mathlib.Data.Prod.Lex
import MutualBackup.Framework.FixedWidth
import MutualBackup.Framework.Ordered

/-!
# Logs of numbered epochs

A log keeps, for every owner, the keys the owner has had, numbered `1, 2, …` without gaps.  A
rotation appends the next number, a revocation marks one entry, and nothing is ever removed.  The
entry an owner currently speaks with is its newest one, unless that one is revoked.

`EpochFields` says how an entry type stores this, so that the same operations and facts serve
several kinds of key.  `validateFrom` is the walk that a validator makes, with the two things it
carries from entry to entry: the order key before, and the number last seen of every owner.

`Evolves` is the abstract content: every entry stays, with its key and its revocation, and a new
entry has a number above all those of its owner.  It is a preorder, so it holds along any run whose
steps satisfy it, and it is all that fencing needs: an epoch that is not current now is not current
later (`Evolves.not_isCurrent`), and the key of an epoch never changes (`Evolves.find_key`).
-/

namespace Framework

open List

/-- How the entries of a log store their owner, number, key and life time. -/
structure EpochFields (α ω π : Type) where
  owner : α → ω
  epoch : α → U64
  /-- What the log keeps for the epoch. -/
  key : α → π
  activatedAt : α → U64
  revokedAt : α → Option U64
  /-- Mark an entry revoked at an event. -/
  revoke : U64 → α → α
  owner_revoke : ∀ n x, owner (revoke n x) = owner x
  epoch_revoke : ∀ n x, epoch (revoke n x) = epoch x
  key_revoke : ∀ n x, key (revoke n x) = key x
  revokedAt_revoke : ∀ n x, revokedAt (revoke n x) = some n

namespace EpochFields

variable {α ω π ε : Type} (F : EpochFields α ω π)

attribute [simp] owner_revoke epoch_revoke key_revoke revokedAt_revoke

/-- Entries are kept by owner and then by number. -/
def order (x : α) : ω ×ₗ U64 := toLex (F.owner x, F.epoch x)

variable {x y : α}

lemma order_eq_order : F.order x = F.order y ↔ F.owner x = F.owner y ∧ F.epoch x = F.epoch y := by
  rw [order, order, toLex_inj, Prod.mk.injEq]

lemma order_revoke (now : U64) (x : α) : F.order (F.revoke now x) = F.order x := by
  rw [order, owner_revoke, epoch_revoke, order]

/-- The life time of an entry lies within the log's events. -/
def Within (now : U64) (x : α) : Prop := F.activatedAt x ≠ 0 ∧ F.activatedAt x ≤ now ∧
    ∀ r ∈ F.revokedAt x, F.activatedAt x < r ∧ r ≤ now

variable {now : U64}

lemma Within.mono {F : EpochFields α ω π} {later : U64} (hle : now ≤ later) (h : F.Within now x) :
    F.Within later x :=
  ⟨h.1, h.2.1.trans hle, fun r hr => ⟨(h.2.2 r hr).1, (h.2.2 r hr).2.trans hle⟩⟩

/-! ## Evolution -/

/-- The same epoch of the same owner with the same key, and revoked where it was revoked. -/
structure Continues (x y : α) : Prop where
  owner_eq : F.owner y = F.owner x
  epoch_eq : F.epoch y = F.epoch x
  key_eq : F.key y = F.key x
  revoked : F.revokedAt x ≠ none → F.revokedAt y = F.revokedAt x

/-- Entries stay, and a new entry has a number above those its owner had. -/
structure Evolves (xs ys : List α) : Prop where
  kept : ∀ x ∈ xs, ∃ y ∈ ys, F.Continues x y
  fresh : ∀ y ∈ ys, (∃ x ∈ xs, F.Continues x y) ∨
    ∀ x ∈ xs, F.owner x = F.owner y → F.epoch x < F.epoch y

variable {F}

lemma Continues.refl (x : α) : F.Continues x x := ⟨rfl, rfl, rfl, fun _ => rfl⟩

lemma Continues.trans {z : α} (hxy : F.Continues x y) (hyz : F.Continues y z) :
    F.Continues x z := by
  refine ⟨hyz.owner_eq.trans hxy.owner_eq, hyz.epoch_eq.trans hxy.epoch_eq,
    hyz.key_eq.trans hxy.key_eq, fun hx => ?_⟩
  rw [← hxy.revoked hx]
  exact hyz.revoked (by rw [hxy.revoked hx]; exact hx)

lemma Evolves.refl (xs : List α) : F.Evolves xs xs :=
  ⟨fun x hx => ⟨x, hx, .refl x⟩, fun y hy => .inl ⟨y, hy, .refl y⟩⟩

variable {xs ys : List α}

lemma Evolves.trans {zs : List α} (hxy : F.Evolves xs ys) (hyz : F.Evolves ys zs) :
    F.Evolves xs zs := by
  refine ⟨fun x hx => ?_, fun z hz => ?_⟩
  · obtain ⟨y, hy, hc⟩ := hxy.kept x hx
    obtain ⟨z, hz, hd⟩ := hyz.kept y hy
    exact ⟨z, hz, hc.trans hd⟩
  · rcases hyz.fresh z hz with ⟨y, hy, hc⟩ | habove
    · rcases hxy.fresh y hy with ⟨x, hx, hd⟩ | habove
      · exact .inl ⟨x, hx, hd.trans hc⟩
      · refine .inr fun x hx ho => ?_
        rw [hc.epoch_eq]
        exact habove x hx (by rw [ho, hc.owner_eq])
    · refine .inr fun x hx ho => ?_
      obtain ⟨y, hy, hc⟩ := hxy.kept x hx
      rw [← hc.epoch_eq]
      exact habove y hy (by rw [hc.owner_eq, ho])

variable (F) [LinearOrder ω]

/-! ## Validation -/

/-- The walk of a validator.  `check` runs before the order is looked at, and `bad` with the last
checks; `expected` is the number last seen of an owner. -/
def validateFrom (check : α → Outcome ε Unit) (bad : α → Prop) [DecidablePred bad] (e : ε)
    (now : U64) : Option (ω ×ₗ U64) → (ω → Option U64) → List α → Outcome ε Unit
  | _, _, [] => .ok ()
  | previous, expected, x :: xs => do
    check x
    reject (isSomeAnd previous fun p => F.order x ≤ p) e
    let next ← U64.succ ((expected (F.owner x)).getD 0)
    reject (F.epoch x ≠ next ∨ F.activatedAt x = 0 ∨ now < F.activatedAt x ∨
      isSomeAnd (F.revokedAt x) (fun r => r ≤ F.activatedAt x ∨ now < r) ∨ bad x) e
    validateFrom check bad e now (some (F.order x))
      (Function.update expected (F.owner x) (some (F.epoch x))) xs

/-- Every number follows the one last seen of its owner. -/
def NumberedFrom : (ω → Option U64) → List α → Prop
  | _, [] => True
  | expected, x :: xs =>
    (F.epoch x).val = ((expected (F.owner x)).getD 0).val + 1 ∧
      NumberedFrom (Function.update expected (F.owner x) (some (F.epoch x))) xs

variable {F}

variable {expected : ω → Option U64} {previous : Option (ω ×ₗ U64)} {check : α → Outcome ε Unit}
  {e : ε} {bad : α → Prop}

lemma validateFrom_cons [DecidablePred bad] :
    F.validateFrom check bad e now previous expected (x :: xs) = .ok () ↔
      (check x = .ok () ∧ (∀ p ∈ previous, p < F.order x) ∧
        (F.epoch x).val = ((expected (F.owner x)).getD 0).val + 1 ∧ F.Within now x ∧ ¬ bad x) ∧
      F.validateFrom check bad e now (some (F.order x))
        (Function.update expected (F.owner x) (some (F.epoch x))) xs = .ok () := by
  rw [validateFrom]
  simp only [bind_eq_ok, reject_eq_ok, U64.succ_eq_ok, exists_unit]
  simp only [isSomeAnd, Within]
  constructor
  · rintro ⟨hcheck, hprev, next, hnext, hrest, hxs⟩
    push Not at hprev hrest
    obtain ⟨hepoch, hact, hnow, hrev, hbad⟩ := hrest
    refine ⟨⟨hcheck, hprev, ?_, ⟨hact, hnow, hrev⟩, hbad⟩, hxs⟩
    rw [hepoch, hnext]
  · rintro ⟨⟨hcheck, hprev, hepoch, ⟨hact, hnow, hrev⟩, hbad⟩, hxs⟩
    refine ⟨hcheck, ?_, F.epoch x, hepoch, ?_, hxs⟩
    · push Not
      exact hprev
    · push Not
      exact ⟨rfl, hact, hnow, hrev, hbad⟩

/-- **What the walk establishes.** -/
lemma validateFrom_eq_ok [DecidablePred bad] :
    F.validateFrom check bad e now previous expected xs = .ok () ↔
      (∀ p ∈ previous, ∀ x ∈ xs, p < F.order x) ∧ Ascending F.order xs ∧
        F.NumberedFrom expected xs ∧ ∀ x ∈ xs, check x = .ok () ∧ F.Within now x ∧ ¬ bad x := by
  induction xs generalizing previous expected with
  | nil => simp [validateFrom, Ascending, NumberedFrom]
  | cons x xs ih =>
    rw [validateFrom_cons, ih, ascending_cons, NumberedFrom]
    simp only [Option.mem_def, Option.some.injEq, forall_eq', mem_cons, forall_eq_or_imp]
    constructor
    · rintro ⟨⟨hcheck, hprev, hepoch, hwithin, hbad⟩, hlt, hasc, hnum, hgood⟩
      exact ⟨fun p hp => ⟨hprev p hp, fun y hy => (hprev p hp).trans (hlt y hy)⟩,
        ⟨hlt, hasc⟩, ⟨hepoch, hnum⟩, ⟨hcheck, hwithin, hbad⟩, hgood⟩
    · rintro ⟨hprev, ⟨hlt, hasc⟩, ⟨hepoch, hnum⟩, ⟨hcheck, hwithin, hbad⟩, hgood⟩
      exact ⟨⟨hcheck, fun p hp => (hprev p hp).1, hepoch, hwithin, hbad⟩, hlt, hasc, hnum, hgood⟩

/-- Numbers start at one. -/
lemma NumberedFrom.epoch_ne_zero (h : F.NumberedFrom expected xs) (hx : x ∈ xs) :
    F.epoch x ≠ 0 := by
  induction xs generalizing expected with
  | nil => cases hx
  | cons y ys ih =>
    rcases mem_cons.mp hx with rfl | hx
    · intro hzero
      have hone := h.1
      rw [hzero] at hone
      simp at hone
    · exact ih h.2 hx

/-- The walk never overflows: a number already at the maximum leaves no larger order key for its
owner, and the order is looked at first. -/
lemma noOverflow_validateFrom [DecidablePred bad] (hcheck : ∀ x, NoOverflow (check x))
    (hexp : ∀ o n, expected o = some n → ∃ p ∈ previous, toLex (o, n) ≤ p) (xs : List α) :
    NoOverflow (F.validateFrom check bad e now previous expected xs) := by
  induction xs generalizing previous expected with
  | nil => exact noOverflow_ok ()
  | cons x xs ih =>
    refine noOverflow_bind (hcheck x) fun _ _ => ?_
    refine noOverflow_bind (noOverflow_reject _ _) fun _ hprev => ?_
    have hlt : ∀ p ∈ previous, p < F.order x := by
      have hnot := reject_eq_ok.mp hprev
      unfold isSomeAnd at hnot
      push Not at hnot
      exact hnot
    have hmax : (expected (F.owner x)).getD 0 ≠ U64.max := by
      cases hn : expected (F.owner x) with
      | none => simp [U64.max, Fin.ext_iff]
      | some n =>
        obtain ⟨p, hp, hle⟩ := hexp _ _ hn
        have hbelow : toLex (F.owner x, n) < F.order x := lt_of_le_of_lt hle (hlt p hp)
        rw [order, Prod.Lex.toLex_lt_toLex] at hbelow
        rcases hbelow with h | ⟨-, h⟩
        · exact absurd h (lt_irrefl _)
        · rw [Option.getD_some]
          exact ne_of_lt (lt_of_lt_of_le h (Fin.le_last _))
    refine noOverflow_bind (U64.noOverflow_succ hmax) fun _ _ => ?_
    refine noOverflow_reject_bind (ih fun o n hn => ?_)
    refine ⟨_, rfl, ?_⟩
    by_cases ho : o = F.owner x
    · subst ho
      rw [Function.update_self, Option.some_inj] at hn
      rw [order, hn]
    · rw [Function.update_of_ne ho] at hn
      obtain ⟨p, hp, hle⟩ := hexp _ _ hn
      exact hle.trans (hlt p hp).le

variable (F)

/-! ## Operations -/

/-- The largest number of an owner, `0` before its first. -/
def latest (o : ω) (xs : List α) : U64 :=
  ((xs.filter fun x => F.owner x = o).map F.epoch).max?.getD 0

/-- Push an entry and sort. -/
def append (x : α) (xs : List α) : List α :=
  (xs ++ [x]).insertionSort fun a b => F.order a ≤ F.order b

/-- The entry of an owner and number. -/
def find (o : ω) (n : U64) (xs : List α) : Option α :=
  xs.find? fun x => F.owner x = o ∧ F.epoch x = n

/-- Revoke the entry of an owner and number, once. -/
def revokeEntry (e : ε) (o : ω) (n now : U64) (xs : List α) : Outcome ε (List α) := do
  let entry ← okOr (F.find o n xs) e
  reject ((F.revokedAt entry).isSome) e
  pure (modifyFirst (fun x => F.owner x = o ∧ F.epoch x = n) (F.revoke now) xs)

/-- The entry with an owner's largest number. -/
def newest (o : ω) (xs : List α) : Option α := maxByKey F.epoch (xs.filter fun x => F.owner x = o)

/-- The newest entry of an owner has this number and is not revoked. -/
def IsCurrent (xs : List α) (o : ω) (n : U64) : Prop :=
  isSomeAnd (F.newest o xs) fun x => F.epoch x = n ∧ F.revokedAt x = none

variable {F}

lemma le_latest (hx : x ∈ xs) : F.epoch x ≤ F.latest (F.owner x) xs :=
  le_max?_getD (mem_map_of_mem (mem_filter.mpr ⟨hx, by simp⟩))

@[simp] lemma mem_append : y ∈ F.append x xs ↔ y ∈ xs ∨ y = x := by
  rw [append, mem_insertionSort, List.mem_append, mem_singleton]

variable {o : ω} {n : U64}

section

variable (h : Ascending F.order xs)

include h

lemma find_eq_some : F.find o n xs = some x ↔ x ∈ xs ∧ F.owner x = o ∧ F.epoch x = n := by
  rw [find, find?_eq_some_of_unique]
  · simp
  · intro x hx y hy hkx hky
    obtain ⟨hox, hnx⟩ := of_decide_eq_true hkx
    obtain ⟨hoy, hny⟩ := of_decide_eq_true hky
    exact h.eq_of_key hx hy (F.order_eq_order.mpr ⟨hox.trans hoy.symm, hnx.trans hny.symm⟩)

lemma newest_eq_some :
    F.newest o xs = some x ↔
      x ∈ xs ∧ F.owner x = o ∧ ∀ y ∈ xs, F.owner y = o → F.epoch y ≤ F.epoch x := by
  rw [newest, maxByKey_eq_some]
  · simp only [mem_filter, decide_eq_true_eq, and_assoc, and_imp]
  · intro x hx y hy hk
    simp only [mem_filter, decide_eq_true_eq] at hx hy
    exact h.eq_of_key hx.1 hy.1 (F.order_eq_order.mpr ⟨hx.2.trans hy.2.symm, hk⟩)

lemma isCurrent_iff :
    F.IsCurrent xs o n ↔ ∃ x ∈ xs, F.owner x = o ∧ F.epoch x = n ∧ F.revokedAt x = none ∧
        ∀ y ∈ xs, F.owner y = o → F.epoch y ≤ n := by
  constructor
  · rintro ⟨x, hnew, rfl, hrev⟩
    obtain ⟨hx, ho, hmax⟩ := (newest_eq_some h).mp hnew
    exact ⟨x, hx, ho, rfl, hrev, hmax⟩
  · rintro ⟨x, hx, ho, rfl, hrev, hmax⟩
    exact ⟨x, (newest_eq_some h).mpr ⟨hx, ho, hmax⟩, rfl, hrev⟩

end

omit [LinearOrder ω] in
lemma mem_map_order : toLex (o, n) ∈ xs.map F.order ↔ ∃ x ∈ xs, F.owner x = o ∧ F.epoch x = n := by
  simp only [mem_map, order, toLex_inj, Prod.mk.injEq]

/-- The newest number of an owner depends only on which epochs there are. -/
lemma newest_epoch_eq_some (h : Ascending F.order xs) :
    (F.newest o xs).map F.epoch = some n ↔
      toLex (o, n) ∈ xs.map F.order ∧ ∀ m, toLex (o, m) ∈ xs.map F.order → m ≤ n := by
  simp only [mem_map_order, Option.map_eq_some_iff, newest_eq_some h]
  constructor
  · rintro ⟨x, ⟨hx, ho, hmax⟩, rfl⟩
    refine ⟨⟨x, hx, ho, rfl⟩, ?_⟩
    rintro m ⟨y, hy, hyo, rfl⟩
    exact hmax y hy hyo
  · rintro ⟨⟨x, hx, ho, rfl⟩, hmax⟩
    exact ⟨x, ⟨hx, ho, fun y hy hyo => hmax _ ⟨y, hy, hyo, rfl⟩⟩, rfl⟩

lemma newest_eq_none : F.newest o xs = none ↔ ∀ x ∈ xs, F.owner x ≠ o := by
  have hnone : F.newest o xs = none ↔ (xs.filter fun x => F.owner x = o) = [] := by
    rw [newest]
    cases xs.filter fun x => F.owner x = o <;> simp [maxByKey]
  rw [hnone, filter_eq_nil_iff]
  simp only [decide_eq_true_eq]

lemma latest_eq_newest (h : Ascending F.order xs) (o : ω) :
    F.latest o xs = ((F.newest o xs).map F.epoch).getD 0 := by
  cases hnew : F.newest o xs with
  | none =>
    have hnil : (xs.filter fun x => F.owner x = o) = [] := by
      rw [filter_eq_nil_iff]
      simpa only [decide_eq_true_eq] using newest_eq_none.mp hnew
    rw [latest, hnil]
    rfl
  | some x =>
    obtain ⟨hx, ho, hmax⟩ := (newest_eq_some h).mp hnew
    have hlatest : ((xs.filter fun x => F.owner x = o).map F.epoch).max? = some (F.epoch x) := by
      rw [max?_eq_some_iff]
      refine ⟨mem_map_of_mem (mem_filter.mpr ⟨hx, by simp [ho]⟩), fun n hn => ?_⟩
      obtain ⟨y, hy, rfl⟩ := mem_map.mp hn
      obtain ⟨hymem, hyo⟩ := mem_filter.mp hy
      exact hmax y hymem (of_decide_eq_true hyo)
    rw [latest, hlatest]
    rfl

/-- An owner has at most one current epoch. -/
lemma IsCurrent.unique {m : U64} (hm : F.IsCurrent xs o m) (hn : F.IsCurrent xs o n) : m = n := by
  obtain ⟨x, hx, rfl, -⟩ := hm
  obtain ⟨y, hy, rfl, -⟩ := hn
  rw [Option.mem_def] at hx hy
  rw [hx, Option.some_inj] at hy
  rw [hy]

lemma revokeEntry_eq_ok :
    F.revokeEntry e o n now xs = .ok ys ↔ ∃ x, F.find o n xs = some x ∧ F.revokedAt x = none ∧
        ys = modifyFirst (fun x => F.owner x = o ∧ F.epoch x = n) (F.revoke now) xs := by
  rw [revokeEntry]
  simp only [bind_eq_ok, okOr_eq_ok, reject_eq_ok, pure_eq_ok, exists_unit,
    Option.not_isSome_iff_eq_none]
  constructor
  · rintro ⟨x, hx, hrev, rfl⟩
    exact ⟨x, hx, hrev, rfl⟩
  · rintro ⟨x, hx, hrev, rfl⟩
    exact ⟨x, hx, hrev, rfl⟩

lemma noOverflow_revokeEntry (e : ε) (o : ω) (n now : U64) (xs : List α) :
    NoOverflow (F.revokeEntry e o n now xs) :=
  noOverflow_bind (noOverflow_okOr _ _) fun _ _ =>
    noOverflow_reject_bind (noOverflow_ok _)

/-! ## The operations evolve the log -/

/-- A rotation to the number after the latest. -/
lemma evolves_append (hx : (F.latest (F.owner x) xs).val < (F.epoch x).val) :
    F.Evolves xs (F.append x xs) := by
  refine ⟨fun y hy => ⟨y, mem_append.mpr (.inl hy), .refl y⟩, fun y hy => ?_⟩
  rcases mem_append.mp hy with hy | rfl
  · exact .inl ⟨y, hy, .refl y⟩
  · refine .inr fun z hz ho => ?_
    have hle : F.epoch z ≤ F.latest (F.owner y) xs := by
      rw [← ho]
      exact le_latest hz
    exact lt_of_le_of_lt hle hx

section

variable (h : Ascending F.order xs)

include h

lemma mem_modifyFirst_revoke :
    y ∈ modifyFirst (fun x => F.owner x = o ∧ F.epoch x = n) (F.revoke now) xs ↔
      (∃ x ∈ xs, (F.owner x = o ∧ F.epoch x = n) ∧ y = F.revoke now x) ∨
        (y ∈ xs ∧ ¬ (F.owner y = o ∧ F.epoch y = n)) := by
  rw [h.mem_modifyFirst (k := toLex (o, n))]
  · simp only [decide_eq_true_eq]
  · intro x hx
    obtain ⟨ho, hn⟩ := of_decide_eq_true hx
    rw [order, ho, hn]

/-- A revocation of an entry that was not revoked. -/
lemma evolves_revoke (hfree : ∀ x ∈ xs, F.owner x = o → F.epoch x = n → F.revokedAt x = none) :
    F.Evolves xs (modifyFirst (fun x => F.owner x = o ∧ F.epoch x = n) (F.revoke now) xs) := by
  have hrevoke : ∀ x ∈ xs, F.owner x = o ∧ F.epoch x = n → F.Continues x (F.revoke now x) :=
    fun x hx hon => ⟨by simp, by simp, by simp, fun hr => absurd (hfree x hx hon.1 hon.2) hr⟩
  refine ⟨fun x hx => ?_, fun y hy => .inl ?_⟩
  · by_cases hon : F.owner x = o ∧ F.epoch x = n
    · exact ⟨_, (mem_modifyFirst_revoke h).mpr (.inl ⟨x, hx, hon, rfl⟩), hrevoke x hx hon⟩
    · exact ⟨x, (mem_modifyFirst_revoke h).mpr (.inr ⟨hx, hon⟩), .refl x⟩
  · rcases (mem_modifyFirst_revoke h).mp hy with ⟨x, hx, hon, rfl⟩ | ⟨hy, -⟩
    · exact ⟨x, hx, hrevoke x hx hon⟩
    · exact ⟨y, hy, .refl y⟩

/-! ## The queries after an operation -/

lemma find_append (hys : Ascending F.order (F.append x xs)) (o : ω) (n : U64) :
    F.find o n (F.append x xs) =
      if F.owner x = o ∧ F.epoch x = n then some x else F.find o n xs := by
  ext y
  rw [find_eq_some hys, mem_append]
  split
  · rename_i hx
    rw [Option.some_inj]
    constructor
    · rintro ⟨hy, ho, hn⟩
      refine hys.eq_of_key (mem_append.mpr (.inr rfl)) (mem_append.mpr hy) ?_
      exact F.order_eq_order.mpr ⟨hx.1.trans ho.symm, hx.2.trans hn.symm⟩
    · rintro rfl
      exact ⟨.inr rfl, hx⟩
  · rename_i hx
    rw [find_eq_some h]
    constructor
    · rintro ⟨hy | rfl, hon⟩
      · exact ⟨hy, hon⟩
      · exact absurd hon hx
    · rintro ⟨hy, hon⟩
      exact ⟨.inl hy, hon⟩

/-- An entry above its owner's latest number is the newest of its owner. -/
lemma newest_append (hys : Ascending F.order (F.append x xs))
    (hx : (F.latest (F.owner x) xs).val < (F.epoch x).val) (o : ω) :
    (F.newest o (F.append x xs)).map F.epoch =
      if F.owner x = o then some (F.epoch x) else (F.newest o xs).map F.epoch := by
  have hle : ∀ y, y ∈ xs ∨ y = x → F.owner y = F.owner x → F.epoch y ≤ F.epoch x := by
    rintro y (hy | rfl) ho
    · rw [← ho] at hx
      exact le_of_lt (lt_of_le_of_lt (le_latest hy) hx)
    · exact le_rfl
  ext n
  rw [newest_epoch_eq_some hys]
  simp only [mem_map_order, mem_append]
  split
  · rename_i ho
    subst ho
    rw [Option.some_inj]
    constructor
    · rintro ⟨⟨y, hy, hyo, rfl⟩, hmax⟩
      exact le_antisymm (hmax _ ⟨x, .inr rfl, rfl, rfl⟩) (hle y hy hyo)
    · rintro rfl
      refine ⟨⟨x, .inr rfl, rfl, rfl⟩, ?_⟩
      rintro m ⟨y, hy, hyo, rfl⟩
      exact hle y hy hyo
  · rename_i ho
    have hmem : ∀ m, (∃ y, (y ∈ xs ∨ y = x) ∧ F.owner y = o ∧ F.epoch y = m) ↔
        ∃ y ∈ xs, F.owner y = o ∧ F.epoch y = m := by
      intro m
      constructor
      · rintro ⟨y, hy | rfl, hyo, hym⟩
        · exact ⟨y, hy, hyo, hym⟩
        · exact absurd hyo ho
      · rintro ⟨y, hy, hyo, hym⟩
        exact ⟨y, .inl hy, hyo, hym⟩
    simp only [hmem]
    rw [newest_epoch_eq_some h]
    simp only [mem_map_order]

lemma find_modifyFirst_revoke (o' : ω) (n' : U64) :
    F.find o' n' (modifyFirst (fun x => F.owner x = o ∧ F.epoch x = n) (F.revoke now) xs) =
      if o = o' ∧ n = n' then (F.find o n xs).map (F.revoke now) else F.find o' n' xs := by
  ext y
  rw [find_eq_some (h.modifyFirst (F.order_revoke now)), mem_modifyFirst_revoke h]
  split
  · rename_i hon
    obtain ⟨rfl, rfl⟩ := hon
    simp only [Option.map_eq_some_iff, find_eq_some h]
    constructor
    · rintro ⟨⟨x, hx, hon, rfl⟩ | ⟨-, hnot⟩, hyon⟩
      · exact ⟨x, ⟨hx, hon⟩, rfl⟩
      · exact absurd hyon hnot
    · rintro ⟨x, ⟨hx, hon⟩, rfl⟩
      exact ⟨.inl ⟨x, hx, hon, rfl⟩, by simp [hon]⟩
  · rename_i hne
    rw [find_eq_some h]
    constructor
    · rintro ⟨⟨x, hx, hon, rfl⟩ | ⟨hy, -⟩, hyon⟩
      · rw [owner_revoke, epoch_revoke, hon.1, hon.2] at hyon
        exact absurd hyon hne
      · exact ⟨hy, hyon⟩
    · rintro ⟨hy, hyon⟩
      refine ⟨.inr ⟨hy, fun hon => hne ?_⟩, hyon⟩
      exact ⟨hon.1.symm.trans hyon.1, hon.2.symm.trans hyon.2⟩

lemma newest_modifyFirst_revoke (o' : ω) :
    (F.newest o' (modifyFirst (fun x => F.owner x = o ∧ F.epoch x = n) (F.revoke now) xs)).map
      F.epoch = (F.newest o' xs).map F.epoch := by
  ext m
  rw [newest_epoch_eq_some (h.modifyFirst (F.order_revoke now)), newest_epoch_eq_some h,
    map_modifyFirst (F.order_revoke now)]

lemma evolves_of_revokeEntry (hok : F.revokeEntry e o n now xs = .ok ys) : F.Evolves xs ys := by
  obtain ⟨x, hx, hrev, rfl⟩ := revokeEntry_eq_ok.mp hok
  obtain ⟨hmem, ho, hn⟩ := (find_eq_some h).mp hx
  refine evolves_revoke h fun y hy hyo hyn => ?_
  rw [h.eq_of_key hy hmem (F.order_eq_order.mpr ⟨hyo.trans ho.symm, hyn.trans hn.symm⟩), hrev]

/-- Revoking the current epoch leaves its owner without one: the entry stays the newest. -/
lemma not_isCurrent_of_revokeEntry (hok : F.revokeEntry e o n now xs = .ok ys)
    (hcur : F.IsCurrent xs o n) (m : U64) : ¬ F.IsCurrent ys o m := by
  obtain ⟨-, -, -, rfl⟩ := revokeEntry_eq_ok.mp hok
  obtain ⟨x, hx, ho, hn, -, hmax⟩ := (isCurrent_iff h).mp hcur
  intro hm
  obtain ⟨y, hy, hyo, hym, hyrev, hymax⟩ :=
    (isCurrent_iff (h.modifyFirst (F.order_revoke now))).mp hm
  have hnm : n ≤ m := by
    have hle := hymax _ ((mem_modifyFirst_revoke h).mpr (.inl ⟨x, hx, ⟨ho, hn⟩, rfl⟩))
      (by simp [ho])
    rwa [F.epoch_revoke, hn] at hle
  rcases (mem_modifyFirst_revoke h).mp hy with ⟨z, -, -, rfl⟩ | ⟨hyxs, hynot⟩
  · rw [F.revokedAt_revoke] at hyrev
    cases hyrev
  · have hmn : m ≤ n := by
      rw [← hym]
      exact hmax y hyxs hyo
    exact hynot ⟨hyo, hym.trans (le_antisymm hmn hnm)⟩

end

/-- **Fencing.** An epoch of the log that is not current is not current in any later log. -/
lemma Evolves.not_isCurrent (h : F.Evolves xs ys) (hxs : Ascending F.order xs)
    (hys : Ascending F.order ys) (hx : x ∈ xs) (ho : F.owner x = o) (hn : F.epoch x = n)
    (hnot : ¬ F.IsCurrent xs o n) : ¬ F.IsCurrent ys o n := by
  intro hcur
  obtain ⟨y, hy, hyo, hyn, hrev, hmax⟩ := (isCurrent_iff hys).mp hcur
  refine hnot ((isCurrent_iff hxs).mpr ⟨x, hx, ho, hn, ?_, fun z hz hzo => ?_⟩)
  · -- a revocation of `x` would have been kept in `y`
    obtain ⟨y', hy', hc⟩ := h.kept x hx
    have hyy : y' = y := hys.eq_of_key hy' hy
      (F.order_eq_order.mpr ⟨by rw [hc.owner_eq, ho, hyo], by rw [hc.epoch_eq, hn, hyn]⟩)
    by_contra hne
    exact hne (by rw [← hc.revoked hne, hyy, hrev])
  · obtain ⟨z', hz', hc⟩ := h.kept z hz
    rw [← hc.epoch_eq]
    exact hmax z' hz' (hc.owner_eq.trans hzo)

/-- An epoch that was current once and is not current now is not current later. -/
lemma IsCurrent.fenced {zs : List α} (hcur : F.IsCurrent xs o n) (hxs : Ascending F.order xs)
    (hys : Ascending F.order ys) (hzs : Ascending F.order zs) (hxy : F.Evolves xs ys)
    (hyz : F.Evolves ys zs) (hnot : ¬ F.IsCurrent ys o n) : ¬ F.IsCurrent zs o n := by
  obtain ⟨x, hx, ho, hn, -, -⟩ := (isCurrent_iff hxs).mp hcur
  obtain ⟨y, hy, hc⟩ := hxy.kept x hx
  exact hyz.not_isCurrent hys hzs hy (hc.owner_eq.trans ho) (hc.epoch_eq.trans hn) hnot

/-- The key of an epoch never changes. -/
lemma Evolves.find_key (h : F.Evolves xs ys) (hxs : Ascending F.order xs)
    (hys : Ascending F.order ys) {k : π} (hk : (F.find o n xs).map F.key = some k) :
    (F.find o n ys).map F.key = some k := by
  obtain ⟨x, hx, rfl⟩ := Option.map_eq_some_iff.mp hk
  obtain ⟨hmem, ho, hn⟩ := (find_eq_some hxs).mp hx
  obtain ⟨y, hy, hc⟩ := h.kept x hmem
  rw [Option.map_eq_some_iff]
  exact ⟨y, (find_eq_some hys).mpr ⟨hy, hc.owner_eq.trans ho, hc.epoch_eq.trans hn⟩, hc.key_eq⟩

end EpochFields

end Framework

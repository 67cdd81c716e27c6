import Mathlib.Data.List.Induction
import Mathlib.Order.Fin.Basic
import Mathlib.Tactic.NormNum
import MutualBackup.Framework.Outcome

/-!
# Machine integers and byte arrays

`U8`, `U16`, `U32` and `U64` are the unsigned machine integers as `Fin (2 ^ w)`, so that a value out
of range cannot be written.  A byte array `[u8; n]` is `Bytes n`, read as a big-endian number below
`256 ^ n`: equality is equality of the bytes, and the order of the numbers is the lexicographic
order of the bytes, which is the order the source compares identities with.

Addition comes in the two forms the source uses: `checkedSucc` is `checked_add(1)`, and `succ` is
the unchecked `+ 1`, whose overflow is the fault of `Outcome`.  `beBytes` and `beValue` are
`to_be_bytes` and `from_be_bytes`, with the round trip between them.
-/

namespace Framework

abbrev U8 := Fin (2 ^ 8)

abbrev U16 := Fin (2 ^ 16)

abbrev U32 := Fin (2 ^ 32)

abbrev U64 := Fin (2 ^ 64)

/-- `i64::MAX`. -/
def i64Max : ℕ := 2 ^ 63 - 1

/-- A byte array of length `n`, as a big-endian number. -/
abbrev Bytes (n : ℕ) := Fin (256 ^ n)

/-! Named instances, so that numerals and membership tests at these types are the same term
wherever they are written. -/

instance neZero_u8 : NeZero (2 ^ 8) := ⟨by norm_num⟩

instance neZero_u16 : NeZero (2 ^ 16) := ⟨by norm_num⟩

instance neZero_u32 : NeZero (2 ^ 32) := ⟨by norm_num⟩

instance neZero_u64 : NeZero (2 ^ 64) := ⟨by norm_num⟩

instance neZero_bytes16 : NeZero (256 ^ 16) := ⟨by norm_num⟩

instance neZero_bytes32 : NeZero (256 ^ 32) := ⟨by norm_num⟩

instance lawfulBEq_bytes32 : LawfulBEq (Bytes 32) := inferInstance

/-- Bytes are compared as numbers. -/
instance linearOrder_byte : LinearOrder UInt8 where
  le_refl _ := UInt8.le_refl _
  le_trans _ _ _ := UInt8.le_trans
  lt_iff_le_not_ge _ _ := Std.LawfulOrderLT.lt_iff _ _
  le_antisymm _ _ := UInt8.le_antisymm
  le_total := UInt8.le_total
  toDecidableLE := inferInstance

/-! ## Addition -/

variable {ε : Type}

section Add

variable {w : ℕ}

section

variable (a : Fin (2 ^ w)) (b : Fin (2 ^ w))

/-- `checked_add`. -/
def checkedAdd : Option (Fin (2 ^ w)) :=
  if h : a.val + b.val < 2 ^ w then some ⟨a.val + b.val, h⟩ else none

/-- `checked_sub`. -/
def checkedSub : Option (Fin (2 ^ w)) :=
  if b ≤ a then some ⟨a.val - b.val, (Nat.sub_le _ _).trans_lt a.isLt⟩ else none

/-- The unchecked `a + b`. -/
def uncheckedAdd {ε : Type} : Outcome ε (Fin (2 ^ w)) :=
  match checkedAdd a b with
  | some c => .ok c
  | none => .error .overflow

/-- The unchecked `a - b`. -/
def uncheckedSub {ε : Type} : Outcome ε (Fin (2 ^ w)) :=
  match checkedSub a b with
  | some c => .ok c
  | none => .error .overflow

end

variable {a b c : Fin (2 ^ w)}

lemma checkedAdd_eq_some : checkedAdd a b = some c ↔ c.val = a.val + b.val := by
  unfold checkedAdd
  split
  · rw [Option.some_inj, Fin.ext_iff]
    exact ⟨fun h => h.symm, fun h => h.symm⟩
  · have := c.isLt
    simp only [reduceCtorEq, false_iff]
    omega

lemma checkedSub_eq_some : checkedSub a b = some c ↔ b.val ≤ a.val ∧ c.val = a.val - b.val := by
  unfold checkedSub
  split
  · rename_i h
    rw [Option.some_inj, Fin.ext_iff]
    exact ⟨fun he => ⟨Fin.le_def.mp h, he.symm⟩, fun he => he.2.symm⟩
  · rename_i h
    simp only [reduceCtorEq, false_iff]
    exact fun he => h (Fin.le_def.mpr he.1)

/-- Where the checked addition has a value, the unchecked one has it too. -/
lemma uncheckedAdd_of_checkedAdd (h : checkedAdd a b = some c) :
    (uncheckedAdd a b : Outcome ε (Fin (2 ^ w))) = .ok c := by
  rw [uncheckedAdd, h]

lemma uncheckedAdd_eq_ok :
    (uncheckedAdd a b : Outcome ε (Fin (2 ^ w))) = .ok c ↔ c.val = a.val + b.val := by
  rw [← checkedAdd_eq_some, uncheckedAdd]
  cases checkedAdd a b <;> simp

lemma uncheckedAdd_eq_overflow :
    (uncheckedAdd a b : Outcome ε (Fin (2 ^ w))) = .error .overflow ↔ 2 ^ w ≤ a.val + b.val := by
  rw [uncheckedAdd, checkedAdd]
  by_cases h : a.val + b.val < 2 ^ w
  · simp [h]
  · simp [h, not_lt.mp h]

lemma uncheckedSub_eq_ok :
    (uncheckedSub a b : Outcome ε (Fin (2 ^ w))) = .ok c ↔ b.val ≤ a.val ∧ c.val = a.val - b.val
    := by
  rw [← checkedSub_eq_some, uncheckedSub]
  cases checkedSub a b <;> simp

end Add

namespace U64

/-- `u64::MAX`. -/
def max : U64 := Fin.last (2 ^ 64 - 1)

/-- A step with a checked sum is one with the sum, when it is in range. -/
lemma exists_checkedAdd {a b : U64} {P : U64 → Prop} :
    (∃ c, checkedAdd a b = some c ∧ P c) ↔
      a.val + b.val < 2 ^ 64 ∧ P (Fin.ofNat _ (a.val + b.val)) := by
  have hsum : ∀ c : U64, checkedAdd a b = some c → c = Fin.ofNat _ (a.val + b.val) := by
    intro c hc
    rw [checkedAdd_eq_some] at hc
    rw [Fin.ext_iff, Fin.val_ofNat, ← hc, Nat.mod_eq_of_lt c.isLt]
  constructor
  · rintro ⟨c, hc, hP⟩
    have hlt := c.isLt
    rw [checkedAdd_eq_some.mp hc] at hlt
    rw [← hsum c hc]
    exact ⟨hlt, hP⟩
  · rintro ⟨hlt, hP⟩
    refine ⟨_, checkedAdd_eq_some.mpr ?_, hP⟩
    rw [Fin.val_ofNat, Nat.mod_eq_of_lt hlt]

/-- `checked_add(1)`. -/
def checkedSucc (n : U64) : Option U64 :=
  if h : n.val + 1 < 2 ^ 64 then some ⟨n.val + 1, h⟩ else none

/-- The unchecked `n + 1`. -/
def succ {ε : Type} (n : U64) : Outcome ε U64 :=
  match n.checkedSucc with
  | some m => .ok m
  | none => .error .overflow

variable {n : U64}

@[simp] lemma checkedSucc_eq_some {m : U64} : n.checkedSucc = some m ↔ m.val = n.val + 1 := by
  unfold checkedSucc
  split
  · rename_i h
    rw [Option.some_inj, Fin.ext_iff]
    exact ⟨fun he => he.symm, fun he => he.symm⟩
  · have := m.isLt
    simp only [reduceCtorEq, false_iff]
    omega

lemma checkedSucc_eq_none : n.checkedSucc = none ↔ n = max := by
  have := n.isLt
  unfold checkedSucc
  split
  · simp only [reduceCtorEq, false_iff, Fin.ext_iff, max, Fin.val_last]
    omega
  · simp only [true_iff, Fin.ext_iff, max, Fin.val_last]
    omega

@[simp] lemma succ_eq_ok {m : U64} : (n.succ : Outcome ε U64) = .ok m ↔ m.val = n.val + 1 := by
  rw [← checkedSucc_eq_some, succ]
  cases n.checkedSucc <;> simp

lemma succ_eq_overflow : (n.succ : Outcome ε U64) = .error .overflow ↔ n = max := by
  rw [← checkedSucc_eq_none, succ]
  cases n.checkedSucc <;> simp

lemma noOverflow_succ (h : n ≠ max) : NoOverflow (n.succ : Outcome ε U64) :=
  fun ho => h (succ_eq_overflow.mp ho)

end U64

/-! ## Big-endian bytes -/

/-- The `n` low bytes of `v`, most significant first. -/
def beBytes : ℕ → ℕ → List UInt8
  | 0, _ => []
  | n + 1, v => beBytes n (v / 256) ++ [UInt8.ofNat (v % 256)]

/-- The number a big-endian byte list denotes. -/
def beValue (bs : List UInt8) : ℕ := bs.foldl (fun acc b => acc * 256 + b.toNat) 0

@[simp] lemma length_beBytes (n v : ℕ) : (beBytes n v).length = n := by
  induction n generalizing v with
  | zero => rfl
  | succ n ih => simp [beBytes, ih]

lemma beValue_append_singleton (bs : List UInt8) (b : UInt8) :
    beValue (bs ++ [b]) = beValue bs * 256 + b.toNat := by
  simp [beValue]

/-- **The round trip.** Writing a number below `256 ^ n` as `n` bytes and reading it back
recovers it. -/
lemma beValue_beBytes {n v : ℕ} (h : v < 256 ^ n) : beValue (beBytes n v) = v := by
  induction n generalizing v with
  | zero =>
    have : v = 0 := by simpa using h
    rw [this]
    rfl
  | succ n ih =>
    have hdiv : v / 256 < 256 ^ n := by
      rw [Nat.div_lt_iff_lt_mul (by norm_num)]
      rwa [pow_succ] at h
    rw [beBytes, beValue_append_singleton, ih hdiv]
    have hmod : (UInt8.ofNat (v % 256)).toNat = v % 256 := by
      rw [UInt8.toNat_ofNat']
      omega
    rw [hmod]
    omega

lemma beBytes_beValue (bs : List UInt8) : beBytes bs.length (beValue bs) = bs := by
  induction bs using List.reverseRecOn with
  | nil => rfl
  | append_singleton bs b ih =>
    have hb := b.toNat_lt
    have hdiv : (beValue bs * 256 + b.toNat) / 256 = beValue bs := by omega
    have hmod : (beValue bs * 256 + b.toNat) % 256 = b.toNat := by omega
    rw [beValue_append_singleton, List.length_append, List.length_singleton, beBytes, hdiv, hmod,
      ih, UInt8.ofNat_toNat]

/-- The bytes of a byte array. -/
def Bytes.toList {n : ℕ} (b : Bytes n) : List UInt8 := beBytes n b.val

@[simp] lemma Bytes.length_toList {n : ℕ} (b : Bytes n) : b.toList.length = n :=
  length_beBytes n b.val

/-- The byte array a list of `n` bytes denotes; `none` for another length. -/
def Bytes.ofList (n : ℕ) (bs : List UInt8) : Option (Bytes n) :=
  if h : bs.length = n ∧ beValue bs < 256 ^ n then some ⟨beValue bs, h.2⟩ else none

@[simp] lemma Bytes.ofList_toList {n : ℕ} (b : Bytes n) : Bytes.ofList n b.toList = some b := by
  have hv : beValue (beBytes n b.val) = b.val := beValue_beBytes b.isLt
  unfold Bytes.ofList Bytes.toList
  rw [dif_pos ⟨length_beBytes n b.val, by rw [hv]; exact b.isLt⟩, Option.some_inj, Fin.ext_iff]
  exact hv

lemma Bytes.toList_injective {n : ℕ} :
    Function.Injective (Bytes.toList : Bytes n → List UInt8) := by
  intro a b h
  have := congrArg (Bytes.ofList n) h
  rwa [Bytes.ofList_toList, Bytes.ofList_toList, Option.some_inj] at this

lemma beValue_lt (bs : List UInt8) : beValue bs < 256 ^ bs.length := by
  induction bs using List.reverseRecOn with
  | nil => exact Nat.one_pos
  | append_singleton bs b ih =>
    have hb := b.toNat_lt
    rw [beValue_append_singleton, List.length_append, List.length_singleton, pow_succ]
    omega

lemma Bytes.toList_ofList {n : ℕ} {bs : List UInt8} (h : bs.length = n) :
    ∃ b, Bytes.ofList n bs = some b ∧ b.toList = bs := by
  subst h
  exact ⟨_, dif_pos ⟨rfl, beValue_lt bs⟩, beBytes_beValue bs⟩

/-- `to_be_bytes` of a `u64`. -/
def U64.toBeBytes (n : U64) : List UInt8 := beBytes 8 n.val

end Framework

import Mathlib.Data.List.Forall2
import Mathlib.Tactic.Common

/-!
# Fallible computations with arithmetic faults

A checked program ends in one of three ways: it returns a value, it returns one of its own
errors, or an unchecked `+` leaves the range of its type.  What the last one does depends on
how the program is built — it aborts with overflow checks on, and wraps without them — and
neither is a behaviour a specification may rely on.  An `expect` that fails aborts as well.
`Outcome` therefore keeps it apart from the program's errors as `Failure.overflow`, so that "never
panics or wraps" is the statement `NoOverflow` about a value and not a convention of the reader.

`reject` is the guard `if bad { return Err(e) }`, and `okOr` and `mapErr` are the conversions a
`?` performs.  The `_eq_ok` lemmas are the inversion rules: they turn success of a sequence of
guards into the conjunction of what the guards establish, and every specification lemma of the
development starts from them.
-/

namespace Framework

open List

/-- How a computation can end without a value. -/
inductive Failure (ε : Type) where
  /-- The program returned its own error. -/
  | error (e : ε)
  /-- An unchecked addition left the range of its type, or an expectation failed. -/
  | overflow
  deriving DecidableEq, Repr

/-- A value, or the way its computation failed. -/
abbrev Outcome (ε α : Type) := Except (Failure ε) α

variable {ε ε' α β σ : Type}

/-- The computation returned a value. -/
def Succeeds (x : Outcome ε α) : Prop := ∃ a, x = .ok a

/-- The computation neither panics nor wraps. -/
def NoOverflow (x : Outcome ε α) : Prop := x ≠ .error .overflow

/-- Return the error `e`. -/
def fail (e : ε) : Outcome ε α := .error (.error e)

/-- Leave with `e` when `bad` holds. -/
def reject (bad : Prop) [Decidable bad] (e : ε) : Outcome ε Unit :=
  if bad then fail e else .ok ()

/-- The value of an `Option`, or the error `e`. -/
def okOr (o : Option α) (e : ε) : Outcome ε α :=
  match o with
  | some a => .ok a
  | none => fail e

/-- `expect`: the value of an `Option` that the program takes to be there. -/
def expect (o : Option α) : Outcome ε α :=
  match o with
  | some a => .ok a
  | none => .error .overflow

/-- Convert the program error and keep the fault. -/
def mapErr (f : ε → ε') : Outcome ε α → Outcome ε' α
  | .ok a => .ok a
  | .error (.error e) => fail (f e)
  | .error .overflow => .error .overflow

/-- `*place = next?`: the contents of the place afterwards, and what the statement returns. -/
def assign (place : α) : Outcome ε α → α × Outcome ε Unit
  | .ok a => (a, .ok ())
  | .error e => (place, .error e)

/-- The contents of the place after a statement that returned without an error. -/
def settled (r : α × Outcome ε Unit) : Outcome ε α := do
  r.2
  pure r.1

/-- `is_some_and`: a condition on the value of an `Option`, false without one. -/
def isSomeAnd (o : Option α) (p : α → Prop) : Prop := ∃ a ∈ o, p a

instance (o : Option α) (p : α → Prop) [DecidablePred p] : Decidable (isSomeAnd o p) :=
  match o with
  | none => .isFalse (by rintro ⟨a, h, -⟩; cases h)
  | some a => decidable_of_iff (p a) ⟨fun h => ⟨a, rfl, h⟩, by rintro ⟨b, h, hb⟩; cases h; exact hb⟩

/-- A loop without state: the body on every element in turn, up to the first failure. -/
def forEach (body : α → Outcome ε Unit) : List α → Outcome ε Unit
  | [] => .ok ()
  | x :: xs => body x >>= fun _ => forEach body xs

instance (x : Outcome ε α) : Decidable (Succeeds x) :=
  match x with
  | .ok a => .isTrue ⟨a, rfl⟩
  | .error _ => .isFalse (by rintro ⟨a, h⟩; cases h)

/-! ## Inversion rules -/

@[simp] lemma bind_eq_ok {x : Outcome ε α} {f : α → Outcome ε β} {b : β} :
    (x >>= f) = .ok b ↔ ∃ a, x = .ok a ∧ f a = .ok b := by
  cases x with
  | ok a =>
    constructor
    · intro h
      exact ⟨a, rfl, h⟩
    · rintro ⟨_, ha, h⟩
      cases ha
      exact h
  | error e =>
    constructor
    · intro h
      cases h
    · rintro ⟨_, ha, _⟩
      cases ha

lemma succeeds_bind {x : Outcome ε α} {f : α → Outcome ε β} :
    Succeeds (x >>= f) ↔ ∃ a, x = .ok a ∧ Succeeds (f a) := by
  simp only [Succeeds, bind_eq_ok]
  tauto

/-- Past a step whose value is not used. -/
lemma past {x : Outcome ε α} {y : Outcome ε β} {b : β} (h : (x >>= fun _ => y) = .ok b) :
    y = .ok b := by
  obtain ⟨_, -, h⟩ := bind_eq_ok.mp h
  exact h

@[simp] lemma ok_bind (a : α) (f : α → Outcome ε β) : ((.ok a : Outcome ε α) >>= f) = f a := rfl

@[simp] lemma error_bind (e : Failure ε) (f : α → Outcome ε β) :
    ((.error e : Outcome ε α) >>= f) = .error e := rfl

variable {a : α}

@[simp] lemma pure_eq_ok {b : α} : (pure a : Outcome ε α) = .ok b ↔ a = b := by
  constructor
  · intro h; cases h; rfl
  · rintro rfl; rfl

@[simp] lemma map_eq_ok {f : α → β} {x : Outcome ε α} {b : β} :
    (f <$> x) = .ok b ↔ ∃ a, x = .ok a ∧ f a = b := by
  cases x with
  | ok a =>
    constructor
    · intro h
      cases h
      exact ⟨a, rfl, rfl⟩
    · rintro ⟨_, ha, rfl⟩
      cases ha
      rfl
  | error e =>
    constructor
    · intro h
      cases h
    · rintro ⟨_, ha, _⟩
      cases ha

variable {e : ε}

@[simp] lemma fail_ne_ok : (fail e : Outcome ε α) ≠ .ok a := by
  intro h
  cases h

@[simp] lemma reject_eq_ok {bad : Prop} [Decidable bad] {u : Unit} :
    reject bad e = .ok u ↔ ¬ bad := by
  unfold reject
  split
  · simp_all
  · simp_all

lemma dite_eq_ok {P : Prop} [Decidable P] {f : P → α} :
    (if h : P then .ok (f h) else fail e : Outcome ε α) = .ok a ↔ ∃ h, f h = a := by
  split
  · simp_all
  · simp_all

variable {o : Option α}

@[simp] lemma okOr_eq_ok : okOr o e = .ok a ↔ o = some a := by
  cases o <;> simp [okOr]

@[simp] lemma expect_eq_ok : (expect o : Outcome ε α) = .ok a ↔ o = some a := by
  cases o <;> simp [expect]

@[simp] lemma mapErr_eq_ok {f : ε → ε'} {x : Outcome ε α} : mapErr f x = .ok a ↔ x = .ok a := by
  rcases x with (e | _) | a <;> simp [mapErr]

@[simp] lemma mapErr_ok (f : ε → ε') (a : α) : mapErr f (.ok a : Outcome ε α) = .ok a := rfl

/-- The value of a step that returns no value. -/
@[simp] lemma exists_unit {P : Unit → Prop} : (∃ u, P u) ↔ P () :=
  ⟨fun ⟨_, h⟩ => h, fun h => ⟨_, h⟩⟩

variable {next : Outcome ε α} {place : α}

@[simp] lemma assign_ok_iff : assign place next = (a, .ok ()) ↔ next = .ok a := by
  cases next <;> simp [assign]

lemma settled_eq_ok {r : α × Outcome ε Unit} : settled r = .ok a ↔ r = (a, .ok ()) := by
  rw [settled, bind_eq_ok, exists_unit, pure_eq_ok, Prod.ext_iff, and_comm]

/-- A failed assignment leaves the place as it was. -/
lemma assign_error {e : Failure ε} (h : (assign place next).2 = .error e) :
    (assign place next).1 = place := by
  cases next with
  | ok a => simp [assign] at h
  | error e => rfl

lemma assign_snd_eq_ok : (assign place next).2 = .ok () ↔ Succeeds next := by
  cases next <;> simp [assign, Succeeds]

/-- A loop without state succeeds exactly when its body does on every element. -/
@[simp] lemma forEach_eq_ok {body : α → Outcome ε Unit} {xs : List α} {u : Unit} :
    forEach body xs = .ok u ↔ ∀ x ∈ xs, body x = .ok () := by
  induction xs with
  | nil => simp [forEach]
  | cons x xs ih =>
    rw [forEach, bind_eq_ok]
    simp only [mem_cons, forall_eq_or_imp]
    exact ⟨fun ⟨_, hx, hs⟩ => ⟨hx, ih.mp hs⟩, fun ⟨hx, hs⟩ => ⟨_, hx, ih.mpr hs⟩⟩

/-- A loop that collects the results succeeds exactly when its body does on every element. -/
lemma mapM_eq_ok {f : α → Outcome ε β} {xs : List α} {ys : List β} :
    xs.mapM f = .ok ys ↔ Forall₂ (fun x y => f x = .ok y) xs ys := by
  induction xs generalizing ys with
  | nil => rw [mapM_nil, pure_eq_ok, forall₂_nil_left_iff, eq_comm]
  | cons x xs ih =>
    simp only [mapM_cons, bind_eq_ok, pure_eq_ok, ih, forall₂_cons_left_iff]
    constructor
    · rintro ⟨y, hy, rest, hrest, rfl⟩
      exact ⟨y, rest, hy, hrest, rfl⟩
    · rintro ⟨y, rest, hy, hrest, rfl⟩
      exact ⟨y, hy, rest, hrest, rfl⟩

section Collect

variable {γ : Type} {f : α → Outcome ε β} {xs : List α} {ys : List β}

lemma map_eq_map_of_forall₂ {g : α → γ} {g' : β → γ}
    (hall : Forall₂ (fun x y => g x = g' y) xs ys) : xs.map g = ys.map g' := by
  rw [← forall₂_eq_eq_eq, forall₂_map_left_iff, forall₂_map_right_iff]
  exact hall

/-- What the body preserves of an element, the loop preserves of the list. -/
lemma map_eq_of_mapM {g : α → γ} {g' : β → γ} (h : xs.mapM f = .ok ys)
    (hbody : ∀ x y, f x = .ok y → g' y = g x) : ys.map g' = xs.map g := by
  have hall := (mapM_eq_ok.mp h).imp hbody
  rw [map_eq_map_of_forall₂ (hall.imp fun _ _ => Eq.symm)]

lemma getElem?_of_mapM (h : xs.mapM f = .ok ys) {i : ℕ} {y : β} (hy : ys[i]? = some y) :
    ∃ x, xs[i]? = some x ∧ f x = .ok y := by
  induction mapM_eq_ok.mp h generalizing i with
  | nil => cases hy
  | @cons x y' xs ys hxy hrest ih =>
    cases i with
    | zero =>
      obtain rfl := Option.some.inj hy
      exact ⟨x, rfl, hxy⟩
    | succ i => exact ih (mapM_eq_ok.mpr hrest) hy

lemma mapM_succeeds (hall : ∀ x ∈ xs, Succeeds (f x)) : Succeeds (xs.mapM f) := by
  induction xs with
  | nil => exact ⟨[], rfl⟩
  | cons x xs ih =>
    obtain ⟨y, hy⟩ := hall x mem_cons_self
    obtain ⟨ys, hys⟩ := ih fun z hz => hall z (mem_cons_of_mem _ hz)
    exact ⟨y :: ys, by rw [mapM_cons, hy, ok_bind, hys]; rfl⟩

/-- A loop that does not fail otherwise overflows where its body does. -/
lemma mapM_overflow {x : α} (hall : ∀ x ∈ xs, f x = .error .overflow ∨ Succeeds (f x))
    (hx : x ∈ xs) (hover : f x = .error .overflow) : xs.mapM f = .error .overflow := by
  induction xs with
  | nil => cases hx
  | cons y ys ih =>
    rw [mapM_cons]
    rcases hall y mem_cons_self with hy | ⟨b, hb⟩
    · rw [hy]
      rfl
    · rw [hb, ok_bind]
      rcases mem_cons.mp hx with rfl | hx
      · rw [hb] at hover
        cases hover
      · rw [ih (fun z hz => hall z (mem_cons_of_mem _ hz)) hx]
        rfl

end Collect

/-! ## Absence of faults -/

@[simp] lemma bind_eq_overflow {x : Outcome ε α} {f : α → Outcome ε β} :
    (x >>= f) = .error .overflow ↔
      x = .error .overflow ∨ ∃ a, x = .ok a ∧ f a = .error .overflow := by
  cases x with
  | ok a => simp
  | error e => simp

@[simp] lemma pure_ne_overflow : (pure a : Outcome ε α) ≠ .error .overflow := by
  intro h
  cases h

@[simp] lemma reject_ne_overflow {bad : Prop} [Decidable bad] :
    reject bad e ≠ .error .overflow := by
  unfold reject
  split <;> simp [fail]

@[simp] lemma okOr_ne_overflow : okOr o e ≠ .error .overflow := by
  cases o <;> simp [okOr, fail]

lemma noOverflow_ok (a : α) : NoOverflow (.ok a : Outcome ε α) := by
  intro h
  cases h

lemma noOverflow_fail (e : ε) : NoOverflow (fail e : Outcome ε α) := by
  intro h
  cases h

lemma noOverflow_reject (bad : Prop) [Decidable bad] (e : ε) : NoOverflow (reject bad e) :=
  reject_ne_overflow

lemma noOverflow_okOr (o : Option α) (e : ε) : NoOverflow (okOr o e) := okOr_ne_overflow

lemma noOverflow_mapErr {f : ε → ε'} {x : Outcome ε α} (h : NoOverflow x) :
    NoOverflow (mapErr f x) := by
  rcases x with (e | _) | a
  · exact noOverflow_fail _
  · exact absurd rfl h
  · exact noOverflow_ok a

/-- A sequence is fault free when its first part is, and its second part is on every value the
first part returns. -/
lemma noOverflow_bind {x : Outcome ε α} {f : α → Outcome ε β} (hx : NoOverflow x)
    (hf : ∀ a, x = .ok a → NoOverflow (f a)) : NoOverflow (x >>= f) := by
  rcases x with e | a
  · intro h
    exact hx (by cases h; rfl)
  · exact hf a rfl

lemma noOverflow_reject_bind {bad : Prop} [Decidable bad] {e : ε} {f : Unit → Outcome ε β}
    (hf : NoOverflow (f ())) : NoOverflow (reject bad e >>= f) :=
  noOverflow_bind (noOverflow_reject bad e) fun _ _ => hf

lemma noOverflow_forEach {body : α → Outcome ε Unit} {xs : List α}
    (h : ∀ x ∈ xs, NoOverflow (body x)) : NoOverflow (forEach body xs) := by
  induction xs with
  | nil => exact noOverflow_ok ()
  | cons x xs ih =>
    refine noOverflow_bind (h x mem_cons_self) fun _ _ => ?_
    exact ih fun y hy => h y (mem_cons_of_mem _ hy)

/-! ## Computations with a trace

A computation that calls back into code it does not trust, and records each call.  A callback sees
everything recorded before, and what was recorded stays when the computation fails. -/

variable {τ : Type}

/-- From what was recorded before to the outcome and what is recorded after. -/
def Traced (τ ε α : Type) := List τ → Outcome ε α × List τ

namespace Traced

/-- A step that records nothing. -/
def lift (x : Outcome ε α) : Traced τ ε α := fun log => (x, log)

/-- A callback, whose answer is recorded. -/
def call {ε' : Type} (callback : List τ → Except ε' α) (wrap : ε' → ε) (entry : α → τ) :
    Traced τ ε α :=
  fun log =>
    match callback log with
    | .ok a => (.ok a, log ++ [entry a])
    | .error e => (fail (wrap e), log)

/-- A step that only leaves an entry. -/
def record (entry : τ) : Traced τ ε Unit := fun log => (.ok (), log ++ [entry])

/-- One step after another. -/
def andThen (x : Traced τ ε α) (f : α → Traced τ ε β) : Traced τ ε β := fun log =>
    match x log with
    | (.ok a, log) => f a log
    | (.error e, log) => (.error e, log)

instance : Monad (Traced τ ε) where
  pure a := lift (.ok a)
  bind := andThen

variable {x : Traced τ ε α} {f : α → Traced τ ε β} {log log' : List τ}

lemma bind_of_ok (h : x log = (.ok a, log')) : (x >>= f) log = f a log' := by
  show andThen x f log = _
  rw [andThen, h]

lemma bind_of_error {e : Failure ε} (h : x log = (.error e, log')) :
    (x >>= f) log = (.error e, log') := by
  show andThen x f log = _
  rw [andThen, h]

/-- The runs of a sequence: the first step failed, or the second ran on its value. -/
lemma bind_cases {r : Outcome ε β} (h : (x >>= f) log = (r, log')) :
    (∃ e, x log = (.error e, log') ∧ r = .error e) ∨
      ∃ a mid, x log = (.ok a, mid) ∧ f a mid = (r, log') := by
  rcases hx : x log with ⟨e | a, mid⟩
  · rw [bind_of_error hx] at h
    cases h
    exact .inl ⟨e, rfl, rfl⟩
  · rw [bind_of_ok hx] at h
    exact .inr ⟨a, mid, rfl, h⟩

@[simp] lemma pure_bind (a : α) : ((pure a : Traced τ ε α) >>= f) = f a := rfl

@[simp] lemma lift_ok_bind (a : α) : ((lift (.ok a) : Traced τ ε α) >>= f) = f a := rfl

@[simp] lemma lift_fail_bind (e : ε) : ((lift (fail e) : Traced τ ε α) >>= f) = lift (fail e) := rfl

lemma lift_run (x : Outcome ε α) : (lift x : Traced τ ε α) log = (x, log) := rfl

lemma call_of_ok {ε' : Type} {callback : List τ → Except ε' α} {wrap : ε' → ε} {entry : α → τ}
    (h : callback log = .ok a) : call callback wrap entry log = (.ok a, log ++ [entry a]) := by
  rw [call, h]

/-- A callback that returned was recorded, and one that failed was not. -/
lemma call_cases {ε' : Type} {callback : List τ → Except ε' α} {wrap : ε' → ε} {entry : α → τ}
    {r : Outcome ε α} (h : call callback wrap entry log = (r, log')) :
    (∃ a, callback log = .ok a ∧ r = .ok a ∧ log' = log ++ [entry a]) ∨
      ∃ e, r = fail (wrap e) ∧ log' = log := by
  unfold call at h
  cases hcall : callback log with
  | ok a =>
    rw [hcall] at h
    cases h
    exact .inl ⟨a, rfl, rfl, rfl⟩
  | error e =>
    rw [hcall] at h
    cases h
    exact .inr ⟨e, rfl, rfl⟩

/-- What is recorded stays recorded. -/
def Grows (x : Traced τ ε α) : Prop := ∀ log, log <+: (x log).2

lemma Grows.of_run {r : Outcome ε α} (hx : x.Grows) (h : x log = (r, log')) : log <+: log' := by
  have hgrows := hx log
  rw [h] at hgrows
  exact hgrows

lemma grows_lift (x : Outcome ε α) : (lift x : Traced τ ε α).Grows := fun _ => prefix_rfl

lemma grows_pure (a : α) : (pure a : Traced τ ε α).Grows := fun _ => prefix_rfl

lemma grows_record (entry : τ) : (record entry : Traced τ ε Unit).Grows := fun _ =>
  prefix_append _ _

lemma grows_call {ε' : Type} (callback : List τ → Except ε' α) (wrap : ε' → ε) (entry : α → τ) :
    (call callback wrap entry).Grows := by
  intro log
  rcases hcall : call callback wrap entry log with ⟨r, log'⟩
  rcases call_cases hcall with ⟨a, -, -, rfl⟩ | ⟨e, -, rfl⟩
  · exact prefix_append _ _
  · exact prefix_rfl

lemma Grows.bind (hx : x.Grows) (hf : ∀ a, (f a).Grows) : (x >>= f).Grows := by
  intro log
  rcases hrun : (x >>= f) log with ⟨r, log'⟩
  rcases bind_cases hrun with ⟨e, hfirst, -⟩ | ⟨a, mid, hfirst, hrest⟩
  · exact hx.of_run hfirst
  · exact (hx.of_run hfirst).trans ((hf a).of_run hrest)

end Traced

end Framework

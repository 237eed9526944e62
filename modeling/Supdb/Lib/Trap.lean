import Supdb.Lib.Uvarint

/-!
# Runs that can trap

A function over machine words ends in one of three ways: with a value, with an error it hands its
caller, or in a **trap** – arithmetic that leaves the word, an index outside its buffer – which ends
the process instead.  A `Run` keeps the three apart, so that "this input costs an error and never
the process" is a statement about a definition:

* **`Run.Safe`** – the run does not trap.
* `Run.addU`, `Run.subU`, `Run.mulU`, `Run.index`, `Run.cut` – the operations that can trap, words
  being 64 bits.
* **`Run.ofOption`**, **`Run.ofExcept`** – a function that cannot trap, as a run.  A run that is
  `ofOption x` is safe and computes `x`, which is how a guarded reader is shown to be the reader
  without guards.
* `Run.copyTo`, `Run.store` – writes into a buffer, which trap outside it.
* **`Run.Post`** – what holds of the value where there is one, on a run that does not trap;
  `Run.Post.bind` is its rule.
-/

namespace StorageLib

/-- Why a process stops. -/
inductive Trap where
  /-- Arithmetic outside the machine word. -/
  | overflow
  /-- An index or a window outside its buffer. -/
  | bounds
  /-- A check the code makes of itself. -/
  | assertion
  deriving DecidableEq, Repr

/-- What a run comes to. -/
inductive Run (ε α : Type) where
  | ok (a : α)
  | err (e : ε)
  | trap (t : Trap)
  deriving DecidableEq, Repr

namespace Run

variable {ε α β γ : Type}

/-- The value passed on, an error and a trap passed through. -/
def andThen (r : Run ε α) (f : α → Run ε β) : Run ε β :=
  match r with
  | ok a => f a
  | err e => err e
  | trap t => trap t

instance : Monad (Run ε) where
  pure := ok
  bind := andThen

@[simp] lemma ok_bind (a : α) (f : α → Run ε β) : (ok a >>= f) = f a := rfl

@[simp] lemma err_bind (e : ε) (f : α → Run ε β) : (err e >>= f) = err e := rfl

@[simp] lemma trap_bind (t : Trap) (f : α → Run ε β) : (trap t >>= f) = trap t := rfl

instance : LawfulMonad (Run ε) :=
  LawfulMonad.mk' (Run ε) (by
    intro α r
    cases r with
    | ok a => rfl
    | err e => rfl
    | trap t => rfl) (fun _ _ => rfl) (by
    intro α β γ r f g
    cases r with
    | ok a => rfl
    | err e => rfl
    | trap t => rfl)

/-! ## Runs that do not trap -/

/-- The run does not trap. -/
def Safe : Run ε α → Prop
  | trap _ => False
  | _ => True

instance (r : Run ε α) : Decidable r.Safe :=
  match r with
  | ok _ => isTrue trivial
  | err _ => isTrue trivial
  | trap _ => isFalse id

@[simp] lemma not_safe_trap (t : Trap) : ¬ (trap t : Run ε α).Safe := id

/-- The run does not trap, and its value satisfies `P`. -/
def Post (r : Run ε α) (P : α → Prop) : Prop :=
  match r with
  | ok a => P a
  | err _ => True
  | trap _ => False

@[simp] lemma post_ok (a : α) (P : α → Prop) : (ok a : Run ε α).Post P ↔ P a := Iff.rfl

lemma Post.safe {r : Run ε α} {P : α → Prop} (h : r.Post P) : r.Safe := by
  cases r with
  | ok a => trivial
  | err e => trivial
  | trap t => exact h

lemma Post.of_eq_ok {r : Run ε α} {P : α → Prop} (h : r.Post P) {a : α} (ha : r = ok a) : P a := by
  subst ha
  exact h

/-- **The rule of sequencing.** -/
lemma Post.bind {r : Run ε α} {f : α → Run ε β} {P : α → Prop} {Q : β → Prop} (h : r.Post P)
    (hf : ∀ a, P a → (f a).Post Q) : (r >>= f).Post Q := by
  cases r with
  | ok a => exact hf a h
  | err e => trivial
  | trap t => exact h

/-! ## Readers without traps -/

/-- A function that cannot trap, as a run. -/
def ofOption : Option α → Run Unit α
  | some a => ok a
  | none => err ()

@[simp] lemma ofOption_none : (ofOption none : Run Unit α) = err () := rfl

@[simp] lemma ofOption_some (a : α) : ofOption (some a) = ok a := rfl

lemma ofOption_map (x : Option α) (f : α → β) :
    ofOption (x.map f) = ofOption x >>= fun a => ok (f a) := by
  cases x with
  | none => rfl
  | some a => rfl

lemma ofOption_safe (x : Option α) : (ofOption x).Safe := by
  cases x with
  | none => trivial
  | some a => trivial

lemma ofOption_eq_ok {x : Option α} {a : α} : ofOption x = ok a ↔ x = some a := by
  cases x with
  | none => simp
  | some b => simp

/-- A run that begins with a read goes on as the reader does, where it does for what was read. -/
lemma ofOption_bind_eq {x : Option α} {f : α → Run Unit β} {g : α → Option β}
    (h : ∀ a, x = some a → f a = ofOption (g a)) : (ofOption x >>= f) = ofOption (x >>= g) := by
  cases x with
  | none => rfl
  | some a => exact h a rfl

/-- What a caller sees that takes an error for an answer. -/
def attempt : Run ε α → Run ε (Option α)
  | ok a => ok (some a)
  | err _ => ok none
  | trap t => trap t

@[simp] lemma attempt_ofOption (x : Option α) : (ofOption x).attempt = ok x := by
  cases x with
  | none => rfl
  | some a => rfl

/-! ## Errors with a reason -/

/-- A function that returns an error, as a run. -/
def ofExcept : Except ε α → Run ε α
  | .ok a => ok a
  | .error e => err e

@[simp] lemma ofExcept_ok (a : α) : ofExcept (.ok a : Except ε α) = ok a := rfl

lemma ofExcept_safe (x : Except ε α) : (ofExcept x).Safe := by
  cases x with
  | ok a => trivial
  | error e => trivial

/-- A run that begins with a call that may fail goes on as the function does, where it does for what
was returned. -/
lemma ofExcept_bind_eq {x : Except ε α} {f : α → Run ε β} {g : α → Except ε β}
    (h : ∀ a, x = .ok a → f a = ofExcept (g a)) : (ofExcept x >>= f) = ofExcept (x >>= g) := by
  cases x with
  | ok a => exact h a rfl
  | error e => rfl

/-- `ok_or(e)`. -/
def okOr (e : ε) : Option α → Run ε α
  | some a => ok a
  | none => err e

@[simp] lemma okOr_some (e : ε) (a : α) : okOr e (some a) = ok a := rfl

/-- `ok_or(e)` of a run that misses. -/
def orErr (e : ε) : Run Unit α → Run ε α
  | ok a => ok a
  | err _ => err e
  | trap t => trap t

@[simp] lemma orErr_ofOption (e : ε) (x : Option α) : orErr e (ofOption x) = okOr e x := by
  cases x with
  | none => rfl
  | some a => rfl

/-- `debug_assert!(p)`. -/
def assert (p : Prop) [Decidable p] : Run ε Unit := if p then ok () else trap .assertion

lemma assert_eq {p : Prop} [Decidable p] (h : p) : (assert p : Run ε Unit) = ok () := if_pos h

/-! ## Words of 64 bits -/

/-- `a + b`. -/
def addU (a b : ℕ) : Run ε ℕ := if a + b < 2 ^ 64 then ok (a + b) else trap .overflow

/-- `a - b`. -/
def subU (a b : ℕ) : Run ε ℕ := if b ≤ a then ok (a - b) else trap .overflow

/-- `a * b`. -/
def mulU (a b : ℕ) : Run ε ℕ := if a * b < 2 ^ 64 then ok (a * b) else trap .overflow

/-- `l[i]`. -/
def index (l : List α) (i : ℕ) : Run ε α :=
  match l[i]? with
  | some a => ok a
  | none => trap .bounds

/-- `&l[a..b]`. -/
def cut (l : List α) (a b : ℕ) : Run ε (List α) :=
  match getRange l a b with
  | some x => ok x
  | none => trap .bounds

/-- `x.clamp(lo, hi)`. -/
def clampU (x lo hi : ℕ) : Run ε ℕ :=
  if lo ≤ hi then ok (max lo (min x hi)) else trap .assertion

lemma clampU_eq {x lo hi : ℕ} (h : lo ≤ hi) : (clampU x lo hi : Run ε ℕ) = ok (max lo (min x hi)) :=
  if_pos h

lemma addU_eq {a b : ℕ} (h : a + b < 2 ^ 64) : (addU a b : Run ε ℕ) = ok (a + b) := if_pos h

lemma addU_trap {a b : ℕ} (h : ¬ a + b < 2 ^ 64) : (addU a b : Run ε ℕ) = trap .overflow :=
  if_neg h

lemma subU_eq {a b : ℕ} (h : b ≤ a) : (subU a b : Run ε ℕ) = ok (a - b) := if_pos h

lemma mulU_eq {a b : ℕ} (h : a * b < 2 ^ 64) : (mulU a b : Run ε ℕ) = ok (a * b) := if_pos h

lemma index_eq {l : List α} {i : ℕ} (h : i < l.length) : (index l i : Run ε α) = ok l[i] := by
  rw [index, List.getElem?_eq_getElem h]

lemma cut_eq {l : List α} {a b : ℕ} (h : a ≤ b) (hb : b ≤ l.length) :
    (cut l a b : Run ε (List α)) = ok (slice l a b) := by
  rw [cut, getRange, if_pos ⟨h, hb⟩]

/-- `out[a..b].copy_from_slice(src)`. -/
def copyTo (out : Bytes) (a b : ℕ) (src : Bytes) : Run ε Bytes :=
  if a ≤ b ∧ b ≤ out.length ∧ src.length = b - a then ok (writeAt out a src) else trap .bounds

lemma copyTo_eq {out src : Bytes} {a b : ℕ} (h : a ≤ b) (hb : b ≤ out.length)
    (hlen : src.length = b - a) : (copyTo out a b src : Run ε Bytes) = ok (writeAt out a src) :=
  if_pos ⟨h, hb, hlen⟩

/-- `l[i] = a`. -/
def store (l : List α) (i : ℕ) (a : α) : Run ε (List α) :=
  if i < l.length then ok (l.set i a) else trap .bounds

lemma store_eq {l : List α} {i : ℕ} (a : α) (h : i < l.length) :
    (store l i a : Run ε (List α)) = ok (l.set i a) :=
  if_pos h

end Run

end StorageLib

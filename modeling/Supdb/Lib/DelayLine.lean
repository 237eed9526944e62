import Mathlib.Data.List.Induction
import Mathlib.Data.Nat.ModEq

/-!
# Delay lines

A loop that acts on items one after another may hold each back for a while, in a ring of `m` places,
so that what an item needs is fetched by the time it is acted on.  An item taken in displaces the
one that stands in its place, `m` items older, and that one is acted on; when no more come, what the
ring still holds is acted on from the oldest.

**The delay changes nothing** (`DelayLine.drain_pushAll`): every item is acted on once, in the order
the items came, for every number of them below, at or above the ring's length.
-/

namespace StorageLib

/-- What has been done so far, the items held back, and how many came. -/
structure DelayLine (α β : Type) (m : ℕ) where
  done : β
  ring : Fin m → α
  count : ℕ

namespace DelayLine

variable {α β : Type} {m : ℕ} [NeZero m]

/-- One item taken in, the one in its place acted on. -/
def push (act : β → α → β) (d : DelayLine α β m) (a : α) : DelayLine α β m :=
  { done := if m ≤ d.count then act d.done (d.ring (Fin.ofNat m d.count)) else d.done
    ring := Function.update d.ring (Fin.ofNat m d.count) a
    count := d.count + 1 }

/-- What is held is acted on, the oldest first. -/
def drain (act : β → α → β) (d : DelayLine α β m) : β :=
  let held := min d.count m
  (List.range held).foldl (fun b k => act b (d.ring (Fin.ofNat m (d.count - held + k)))) d.done

variable {act : β → α → β} {d : DelayLine α β m} {b : β} {l : List α} {a : α}

/-- The line after some items: the last `m` of them are held, each in its place, and the others have
been acted on. -/
structure Took (act : β → α → β) (b : β) (l : List α) (d : DelayLine α β m) : Prop where
  count : d.count = l.length
  done : d.done = (l.take (l.length - m)).foldl act b
  held : ∀ k, l.length ≤ k + m → ∀ x, l[k]? = some x → d.ring (Fin.ofNat m k) = x

lemma took_nil (act : β → α → β) (b : β) (ring : Fin m → α) : Took act b [] ⟨b, ring, 0⟩ := by
  refine ⟨rfl, by simp, ?_⟩
  intro k _ x hx
  simp at hx

/-- Two places less than the ring's length apart are the same only if they are one. -/
lemma ofNat_ne {i k : ℕ} (hlt : k < i) (hnear : i < k + m) : Fin.ofNat m i ≠ Fin.ofNat m k := by
  intro h
  have hmod : i % m = k % m := congrArg Fin.val h
  have hdvd : m ∣ i - k := (Nat.modEq_iff_dvd' hlt.le).mp hmod.symm
  have hle := Nat.le_of_dvd (by omega) hdvd
  omega

/-- **One item more.** -/
lemma Took.push (h : Took act b l d) (a : α) : Took act b (l ++ [a]) (d.push act a) where
  count := by
    rw [DelayLine.push, h.count, List.length_append]
    rfl
  done := by
    have hpos : 0 < m := Nat.pos_of_ne_zero (NeZero.ne m)
    rw [DelayLine.push, h.count, List.length_append, List.length_singleton]
    dsimp only
    by_cases hfull : m ≤ l.length
    · -- the oldest of those held is the next to be acted on
      have hlt : l.length - m < l.length := by omega
      have hplace : Fin.ofNat m l.length = Fin.ofNat m (l.length - m) := by
        refine Fin.ext ?_
        change l.length % m = (l.length - m) % m
        exact Nat.mod_eq_sub_mod hfull
      have hdue := h.held (l.length - m) (by omega) _ (List.getElem?_eq_getElem hlt)
      have hsucc : l.length + 1 - m = l.length - m + 1 := by omega
      rw [if_pos hfull, hplace, hdue, h.done, hsucc, List.take_append_of_le_length (by omega),
        List.take_succ_eq_append_getElem hlt, List.foldl_append]
      rfl
    · have hzero : l.length + 1 - m = 0 := by omega
      have hzero' : l.length - m = 0 := by omega
      rw [if_neg hfull, h.done, hzero, hzero', List.take_zero, List.take_zero]
  held := by
    intro k hk x hx
    rw [List.length_append, List.length_singleton] at hk
    rw [DelayLine.push, h.count]
    dsimp only
    rcases Nat.lt_trichotomy k l.length with hlt | rfl | hgt
    · rw [List.getElem?_append_left hlt] at hx
      rw [Function.update_of_ne (ofNat_ne hlt (by omega)).symm]
      exact h.held k (by omega) x hx
    · rw [List.getElem?_append_right (le_refl _), Nat.sub_self] at hx
      rw [Function.update_self]
      simpa using hx
    · rw [List.getElem?_eq_none (by simp; omega)] at hx
      exact absurd hx (by simp)

/-- **All the items**, one after another. -/
lemma took_pushAll (act : β → α → β) (b : β) (ring : Fin m → α) (l : List α) :
    Took act b l (l.foldl (DelayLine.push act) ⟨b, ring, 0⟩) := by
  induction l using List.reverseRecOn with
  | nil => exact took_nil act b ring
  | append_singleton l a ih =>
      rw [List.foldl_append]
      exact ih.push a

/-- What is held is acted on in the order it came. -/
lemma Took.drain (h : Took act b l d) : d.drain act = l.foldl act b := by
  set held := min l.length m with hheld
  have hsplit : l.length - m = l.length - held := by omega
  have hfold : ∀ n ≤ held,
      (List.range n).foldl (fun b k => act b (d.ring (Fin.ofNat m (l.length - held + k)))) d.done
      = (l.take (l.length - held + n)).foldl act b := by
    intro n
    induction n with
    | zero =>
        intro _
        rw [List.range_zero, List.foldl_nil, h.done, hsplit, Nat.add_zero]
    | succ n ih =>
        intro hn
        have hlt : l.length - held + n < l.length := by omega
        have hget := h.held (l.length - held + n) (by omega) _ (List.getElem?_eq_getElem hlt)
        rw [List.range_succ, List.foldl_append, ih (by omega), List.foldl_cons, List.foldl_nil,
          hget, ← Nat.add_assoc, List.take_succ_eq_append_getElem hlt, List.foldl_append]
        rfl
  rw [DelayLine.drain, h.count, ← hheld, hfold held (le_refl _),
    Nat.sub_add_cancel (min_le_left _ _), List.take_length]

/-- **The delay changes nothing.** -/
theorem drain_pushAll (act : β → α → β) (b : β) (ring : Fin m → α) (l : List α) :
    (l.foldl (DelayLine.push act) ⟨b, ring, 0⟩).drain act = l.foldl act b :=
  (took_pushAll act b ring l).drain

end DelayLine

end StorageLib

import Mathlib.Algebra.Order.Group.Multiset

/-!
# Buffers shared by count

A buffer is owned by one, or shared by handles that are counted: a handle is cloned and dropped, and
the buffer is taken back by whoever drops the last.  Handles do not write; an owner does.

* `Shared` – the counts and the contents.
* `Shared.Accounts` – **the count of a buffer is the number of its handles**, and no buffer that has
  an owner has a handle or a second owner.
* `Accounts.make`, `Accounts.wrap`, `Accounts.clone`, `Accounts.drop`, `Accounts.unwrap`,
  `Accounts.write` – an operation each: what it does to the handles and to the owners.
-/

namespace StorageLib

/-- Buffers by number: how many handles each has, what is in it, and the next to be made. -/
structure Shared (α : Type) where
  strong : ℕ → ℕ
  data : ℕ → α
  next : ℕ

namespace Shared

variable {α : Type}

/-- No buffer. -/
def empty [Inhabited α] : Shared α := ⟨fun _ => 0, fun _ => default, 0⟩

/-- A buffer made, its maker's alone. -/
def make [Inhabited α] (h : Shared α) : Shared α × ℕ :=
  ({ h with data := Function.update h.data h.next default, next := h.next + 1 }, h.next)

/-- `Arc::new`: a buffer shared, by one handle so far. -/
def wrap (h : Shared α) (b : ℕ) : Shared α := { h with strong := Function.update h.strong b 1 }

/-- `Arc::clone`. -/
def clone (h : Shared α) (b : ℕ) : Shared α :=
  { h with strong := Function.update h.strong b (h.strong b + 1) }

/-- A handle dropped. -/
def drop (h : Shared α) (b : ℕ) : Shared α :=
  { h with strong := Function.update h.strong b (h.strong b - 1) }

/-- `Arc::try_unwrap`: whether the handle was the last, which is gone either way. -/
def tryUnwrap (h : Shared α) (b : ℕ) : Shared α × Bool := (h.drop b, decide (h.strong b = 1))

/-- A buffer written by its owner. -/
def write (h : Shared α) (b : ℕ) (x : α) : Shared α := { h with data := Function.update h.data b x }

/-- **The accounts are right**: `held` are the handles there are, `own` the buffers that have an
owner. -/
structure Accounts (h : Shared α) (held own : Multiset ℕ) : Prop where
  counted : ∀ b, h.strong b = held.count b
  apart : own.Nodup
  unheld : ∀ b ∈ own, b ∉ held
  made : ∀ b, b ∈ held ∨ b ∈ own → b < h.next

variable {h : Shared α} {held own : Multiset ℕ} {b : ℕ}

lemma accounts_empty [Inhabited α] : (empty : Shared α).Accounts 0 0 where
  counted := by
    intro b
    rfl
  apart := Multiset.nodup_zero
  unheld := by
    intro b hb
    exact absurd hb (Multiset.notMem_zero b)
  made := by
    intro b hb
    simp at hb

/-- A buffer that is made is nobody else's. -/
lemma Accounts.make [Inhabited α] (ha : h.Accounts held own) :
    h.make.1.Accounts held (h.next ::ₘ own) where
  counted := ha.counted
  apart := by
    refine Multiset.nodup_cons.mpr ⟨fun hmem => ?_, ha.apart⟩
    exact lt_irrefl _ (ha.made _ (Or.inr hmem))
  unheld := by
    intro b hb hheld
    rcases Multiset.mem_cons.mp hb with rfl | hown
    · exact lt_irrefl _ (ha.made _ (Or.inl hheld))
    · exact ha.unheld b hown hheld
  made := by
    rintro b (hheld | hown)
    · exact (ha.made b (Or.inl hheld)).trans (Nat.lt_succ_self _)
    · rcases Multiset.mem_cons.mp hown with rfl | hown
      · exact Nat.lt_succ_self _
      · exact (ha.made b (Or.inr hown)).trans (Nat.lt_succ_self _)

/-- An owned buffer, shared. -/
lemma Accounts.wrap (ha : h.Accounts held (b ::ₘ own)) : (h.wrap b).Accounts (b ::ₘ held) own where
  counted := by
    intro c
    rw [Shared.wrap]
    dsimp only
    by_cases hc : c = b
    · have hnone := Multiset.count_eq_zero.mpr (ha.unheld b (Multiset.mem_cons_self b own))
      rw [hc, Function.update_self, Multiset.count_cons_self, hnone]
    · rw [Function.update_of_ne hc, Multiset.count_cons_of_ne hc, ha.counted]
  apart := (Multiset.nodup_cons.mp ha.apart).2
  unheld := by
    intro c hc hheld
    rcases Multiset.mem_cons.mp hheld with rfl | hheld
    · exact (Multiset.nodup_cons.mp ha.apart).1 hc
    · exact ha.unheld c (Multiset.mem_cons_of_mem hc) hheld
  made := by
    rintro c (hheld | hown)
    · rcases Multiset.mem_cons.mp hheld with rfl | hheld
      · exact ha.made c (Or.inr (Multiset.mem_cons_self c own))
      · exact ha.made c (Or.inl hheld)
    · exact ha.made c (Or.inr (Multiset.mem_cons_of_mem hown))

/-- A handle more. -/
lemma Accounts.clone (ha : h.Accounts held own) (hb : b ∈ held) :
    (h.clone b).Accounts (b ::ₘ held) own where
  counted := by
    intro c
    rw [Shared.clone]
    dsimp only
    by_cases hc : c = b
    · rw [hc, Function.update_self, Multiset.count_cons_self, ha.counted]
    · rw [Function.update_of_ne hc, Multiset.count_cons_of_ne hc, ha.counted]
  apart := ha.apart
  unheld := by
    intro c hc hheld
    rcases Multiset.mem_cons.mp hheld with rfl | hheld
    · exact ha.unheld c hc hb
    · exact ha.unheld c hc hheld
  made := by
    rintro c (hheld | hown)
    · rcases Multiset.mem_cons.mp hheld with rfl | hheld
      · exact ha.made c (Or.inl hb)
      · exact ha.made c (Or.inl hheld)
    · exact ha.made c (Or.inr hown)

/-- A handle less. -/
lemma Accounts.drop (ha : h.Accounts (b ::ₘ held) own) : (h.drop b).Accounts held own where
  counted := by
    intro c
    rw [Shared.drop]
    dsimp only
    by_cases hc : c = b
    · rw [hc, Function.update_self, ha.counted, Multiset.count_cons_self, Nat.add_sub_cancel]
    · rw [Function.update_of_ne hc, ha.counted, Multiset.count_cons_of_ne hc]
  apart := ha.apart
  unheld := by
    intro c hc hheld
    exact ha.unheld c hc (Multiset.mem_cons_of_mem hheld)
  made := by
    rintro c (hheld | hown)
    · exact ha.made c (Or.inl (Multiset.mem_cons_of_mem hheld))
    · exact ha.made c (Or.inr hown)

/-- The last handle less, and the buffer its owner's. -/
lemma Accounts.unwrap (ha : h.Accounts (b ::ₘ held) own) (hlast : h.strong b = 1) :
    (h.drop b).Accounts held (b ::ₘ own) := by
  have hnone : b ∉ held := by
    rw [ha.counted, Multiset.count_cons_self] at hlast
    exact Multiset.count_eq_zero.mp (by omega)
  refine ⟨ha.drop.counted, ?_, ?_, ?_⟩
  · refine Multiset.nodup_cons.mpr ⟨fun hown => ?_, ha.apart⟩
    exact ha.unheld b hown (Multiset.mem_cons_self b held)
  · intro c hc hheld
    rcases Multiset.mem_cons.mp hc with rfl | hown
    · exact hnone hheld
    · exact ha.drop.unheld c hown hheld
  · rintro c (hheld | hc)
    · exact ha.drop.made c (Or.inl hheld)
    · rcases Multiset.mem_cons.mp hc with rfl | hown
      · exact ha.made c (Or.inl (Multiset.mem_cons_self c held))
      · exact ha.drop.made c (Or.inr hown)

lemma Accounts.write (ha : h.Accounts held own) (x : α) : (h.write b x).Accounts held own :=
  ⟨ha.counted, ha.apart, ha.unheld, ha.made⟩

/-- What is written is in no buffer that has a handle. -/
lemma Accounts.data_write (ha : h.Accounts held own) (hb : b ∈ own) (x : α) {c : ℕ}
    (hc : c ∈ held) : (h.write b x).data c = h.data c := by
  refine Function.update_of_ne ?_ _ _
  rintro rfl
  exact ha.unheld c hb hc

/-- Nor is what is made. -/
lemma Accounts.data_make [Inhabited α] (ha : h.Accounts held own) {c : ℕ} (hc : c ∈ held) :
    h.make.1.data c = h.data c :=
  Function.update_of_ne (ha.made c (Or.inl hc)).ne _ _

end Shared

end StorageLib

import Supdb.Lib.Bytes
import Supdb.Lib.Lex

/-!
# Big-endian words

A big-endian word compares as its bytes do.  So the first bytes of two byte strings, padded with
zeros and read as words, tell the strings apart in their order wherever the words differ.

* `beNat` – the number a big-endian byte string spells.
* `padded n k` – the first `n` bytes of `k`, behind them zeros.
* `lt_of_beNat_padded_lt` – **where the words differ the strings compare as the words.**
-/

namespace StorageLib

/-- The number a big-endian byte string spells. -/
def beNat : Bytes → ℕ
  | [] => 0
  | b :: bs => b.toNat * 256 ^ bs.length + beNat bs

/-- The first `n` bytes of `k`, behind them zeros. -/
def padded (n : ℕ) (k : Bytes) : Bytes := k.take n ++ List.replicate (n - k.length) 0

section Words

variable {a b : Bytes}

lemma beNat_lt (a : Bytes) : beNat a < 256 ^ a.length := by
  induction a with
  | nil => simp [beNat]
  | cons x a ih =>
      have hx : x.toNat < 256 := x.toNat_lt
      rw [beNat, List.length_cons, pow_succ]
      nlinarith

lemma beNat_append (a b : Bytes) : beNat (a ++ b) = beNat a * 256 ^ b.length + beNat b := by
  induction a with
  | nil => simp [beNat]
  | cons x a ih =>
      rw [List.cons_append, beNat, beNat, ih, List.length_append, pow_add]
      ring

/-- A smaller byte string of the same length spells a number no larger. -/
lemma beNat_le_beNat (hlen : a.length = b.length) (h : a ≤ b) : beNat a ≤ beNat b := by
  induction a generalizing b with
  | nil =>
      rw [List.length_eq_zero_iff.mp hlen.symm]
  | cons x a ih =>
      cases b with
      | nil => simp at hlen
      | cons y b =>
          rw [List.length_cons, List.length_cons, Nat.add_right_cancel_iff] at hlen
          have ha := beNat_lt a
          rw [hlen] at ha
          rw [beNat, beNat, hlen]
          rcases cons_le_cons.mp h with hxy | ⟨rfl, hab⟩
          · have hstep : x.toNat + 1 ≤ y.toNat := UInt8.lt_iff_toNat_lt.mp hxy
            nlinarith [Nat.mul_le_mul_right (256 ^ b.length) hstep]
          · exact Nat.add_le_add_left (ih hlen hab) _

/-- Below, of the same length: a smaller number. -/
lemma beNat_lt_beNat (hlen : a.length = b.length) (h : a < b) : beNat a < beNat b := by
  induction a generalizing b with
  | nil =>
      rw [List.length_eq_zero_iff.mp hlen.symm] at h
      exact absurd h (lt_irrefl _)
  | cons x a ih =>
      cases b with
      | nil => simp at hlen
      | cons y b =>
          rw [List.length_cons, List.length_cons, Nat.add_right_cancel_iff] at hlen
          have ha := beNat_lt a
          rw [hlen] at ha
          rw [beNat, beNat, hlen]
          rcases cons_lt_cons.mp h with hxy | ⟨rfl, hab⟩
          · have hstep : x.toNat + 1 ≤ y.toNat := UInt8.lt_iff_toNat_lt.mp hxy
            nlinarith [Nat.mul_le_mul_right (256 ^ b.length) hstep]
          · exact Nat.add_lt_add_left (ih hlen hab) _

/-- Byte strings of one length compare as their numbers. -/
lemma cmp_beNat (hlen : a.length = b.length) : cmp (beNat a) (beNat b) = cmp a b := by
  rcases lt_trichotomy a b with h | rfl | h
  · rw [cmp_of_lt h, (beNat_lt_beNat hlen h).cmp_eq_lt]
  · rw [cmp_of_eq, cmp_self_eq_eq]
  · rw [cmp_of_gt h, (beNat_lt_beNat hlen.symm h).cmp_eq_gt]

end Words

section Padded

variable {n : ℕ} {k l : Bytes}

lemma length_padded (n : ℕ) (k : Bytes) : (padded n k).length = n := by
  rw [padded, List.length_append, List.length_take, List.length_replicate]
  omega

lemma padded_nil (n : ℕ) : padded (n + 1) [] = 0 :: padded n [] := by
  simp [padded, List.replicate_succ]

lemma padded_cons (n : ℕ) (x : UInt8) (k : Bytes) : padded (n + 1) (x :: k) = x :: padded n k := by
  simp [padded]

/-- Padding keeps the order. -/
lemma padded_le_padded (h : k ≤ l) : padded n k ≤ padded n l := by
  induction n generalizing k l with
  | zero => simp [padded]
  | succ n ih =>
      cases k with
      | nil =>
          cases l with
          | nil => exact le_refl _
          | cons y l =>
              rw [padded_nil, padded_cons]
              rcases eq_or_lt_of_le (UInt8.zero_le : (0 : UInt8) ≤ y) with rfl | hy
              · exact cons_le_cons.mpr (Or.inr ⟨rfl, ih (nil_le l)⟩)
              · exact cons_le_cons.mpr (Or.inl hy)
      | cons x k =>
          cases l with
          | nil => exact absurd (nil_lt_cons x k) (not_lt_of_ge h)
          | cons y l =>
              rw [padded_cons, padded_cons]
              rcases cons_le_cons.mp h with hxy | ⟨rfl, hkl⟩
              · exact cons_le_cons.mpr (Or.inl hxy)
              · exact cons_le_cons.mpr (Or.inr ⟨rfl, ih hkl⟩)

/-- **Where the words differ the strings compare as the words.** -/
theorem lt_of_beNat_padded_lt (h : beNat (padded n k) < beNat (padded n l)) : k < l := by
  by_contra hle
  have hlen : (padded n l).length = (padded n k).length := by rw [length_padded, length_padded]
  exact absurd h (not_lt_of_ge (beNat_le_beNat hlen (padded_le_padded (not_lt.mp hle))))

/-- The same for the strings behind a part they share. -/
lemma lt_of_padded_drop_lt {p : ℕ} (h : k.take p = l.take p)
    (hlt : padded n (k.drop p) < padded n (l.drop p)) : k < l := by
  rw [← drop_lt_drop_iff h]
  by_contra hle
  exact absurd hlt (not_lt_of_ge (padded_le_padded (not_lt.mp hle)))

lemma padded_drop_le {p : ℕ} (h : k.take p = l.take p) (hle : k ≤ l) :
    padded n (k.drop p) ≤ padded n (l.drop p) :=
  padded_le_padded ((drop_le_drop_iff h).mpr hle)

/-- Words compare as the strings they were padded from. -/
lemma beNat_padded_lt_iff : beNat (padded n k) < beNat (padded n l) ↔ padded n k < padded n l := by
  have hlen : (padded n k).length = (padded n l).length := by rw [length_padded, length_padded]
  constructor
  · intro h
    by_contra hle
    exact absurd h (not_lt_of_ge (beNat_le_beNat hlen.symm (not_lt.mp hle)))
  · exact beNat_lt_beNat hlen

end Padded

end StorageLib

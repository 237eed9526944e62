import Mathlib.Tactic

/-!
# Prefixes in the lexicographic order

Lists of a linear order, compared as dictionaries do.  A list is at or behind its prefixes, and a
bound no longer than `n` sees only the first `n` elements of what it is compared with.
-/

namespace StorageLib

variable {α : Type} [LinearOrder α]

lemma cons_lt_cons {a b : α} {l m : List α} : a :: l < b :: m ↔ a < b ∨ a = b ∧ l < m :=
  List.cons_lt_cons_iff

lemma cons_le_cons {a b : α} {l m : List α} : a :: l ≤ b :: m ↔ a < b ∨ a = b ∧ l ≤ m := by
  rw [le_iff_lt_or_eq, cons_lt_cons, List.cons.injEq, le_iff_lt_or_eq (a := l)]
  tauto

lemma nil_lt_cons (a : α) (l : List α) : [] < a :: l := List.nil_lt_cons a l

lemma nil_le (l : List α) : [] ≤ l := by
  cases l with
  | nil => exact le_refl _
  | cons a l => exact (nil_lt_cons a l).le

lemma not_lt_nil (l : List α) : ¬ l < [] := not_lt_of_ge (nil_le l)

/-- A prefix is at or below the list. -/
lemma take_le (n : ℕ) (l : List α) : l.take n ≤ l := by
  induction l generalizing n with
  | nil => simp
  | cons a l ih =>
      cases n with
      | zero => exact nil_le _
      | succ n => exact cons_le_cons.mpr (Or.inr ⟨rfl, ih n⟩)

/-- Below a short bound, a list is as its prefix is. -/
lemma take_lt_iff {n : ℕ} {l b : List α} (h : b.length ≤ n) : l.take n < b ↔ l < b := by
  induction n generalizing l b with
  | zero =>
      have hb : b = [] := List.length_eq_zero_iff.mp (by omega)
      subst hb
      exact iff_of_false (not_lt_nil _) (not_lt_nil _)
  | succ n ih =>
      cases l with
      | nil => simp
      | cons a l =>
          cases b with
          | nil => exact iff_of_false (not_lt_nil _) (not_lt_nil _)
          | cons c b =>
              rw [List.take_succ_cons, cons_lt_cons, cons_lt_cons, ih (by simpa using h)]

/-- Cutting both short keeps the order. -/
lemma take_le_take (n : ℕ) {l m : List α} (h : l ≤ m) : l.take n ≤ m.take n := by
  by_contra hlt
  have hm : (m.take n).length ≤ n := List.length_take_le _ _
  have hl : (l.take n).length ≤ n := List.length_take_le _ _
  have : m < l.take n := (take_lt_iff hl).mp (not_le.mp hlt)
  exact absurd (this.trans_le (take_le n l)) (not_lt_of_ge h)

/-- Lists whose first parts differ compare as those do. -/
lemma lt_of_take_lt_take {n : ℕ} {l m : List α} (h : l.take n < m.take n) : l < m := by
  by_contra hle
  exact absurd h (not_lt_of_ge (take_le_take n (not_lt.mp hle)))

/-- What two lists share, every list between them shares. -/
lemma take_eq_of_between {a k b : List α} {n : ℕ} (hak : a ≤ k) (hkb : k ≤ b)
    (hn : n ≤ a.length) (hab : a.take n = b.take n) : k.take n = a.take n := by
  induction n generalizing a k b with
  | zero => simp
  | succ n ih =>
      cases a with
      | nil => exact absurd hn (by simp)
      | cons x a =>
          cases b with
          | nil => exact absurd hab (by simp)
          | cons y b =>
              rw [List.take_succ_cons, List.take_succ_cons, List.cons.injEq] at hab
              obtain ⟨rfl, hab⟩ := hab
              cases k with
              | nil => exact absurd hak (not_le_of_gt (nil_lt_cons x a))
              | cons z k =>
                  rw [cons_le_cons] at hak hkb
                  have hzx : x = z := by
                    rcases hak with h1 | ⟨rfl, -⟩
                    · rcases hkb with h2 | ⟨rfl, -⟩
                      · exact absurd h1 (lt_asymm h2)
                      · rfl
                    · rfl
                  subst hzx
                  have h1 : a ≤ k := by
                    rcases hak with h | ⟨-, h⟩
                    · exact absurd h (lt_irrefl _)
                    · exact h
                  have h2 : k ≤ b := by
                    rcases hkb with h | ⟨-, h⟩
                    · exact absurd h (lt_irrefl _)
                    · exact h
                  rw [List.take_succ_cons, List.take_succ_cons,
                    ih h1 h2 (by simpa using hn) hab]

/-- Behind a part they share, lists compare as they do. -/
lemma drop_lt_drop_iff {n : ℕ} {k l : List α} (h : k.take n = l.take n) : k.drop n < l.drop n ↔
    k < l := by
  induction n generalizing k l with
  | zero => rw [List.drop_zero, List.drop_zero]
  | succ n ih =>
      cases k with
      | nil =>
          cases l with
          | nil => simp
          | cons y l => exact absurd h (by simp)
      | cons x k =>
          cases l with
          | nil => exact absurd h (by simp)
          | cons y l =>
              rw [List.take_succ_cons, List.take_succ_cons, List.cons.injEq] at h
              obtain ⟨rfl, h⟩ := h
              rw [List.drop_succ_cons, List.drop_succ_cons, ih h, cons_lt_cons]
              simp

lemma drop_le_drop_iff {n : ℕ} {k l : List α} (h : k.take n = l.take n) : k.drop n ≤ l.drop n ↔
    k ≤ l := by
  rw [← not_lt, ← not_lt, drop_lt_drop_iff h.symm]

lemma cmp_of_lt {l m : List α} (h : l < m) : cmp l m = .lt := by
  rw [cmp, cmpUsing, if_pos h]

lemma cmp_of_gt {l m : List α} (h : m < l) : cmp l m = .gt := by
  rw [cmp, cmpUsing, if_neg (lt_asymm h), if_pos h]

lemma cmp_of_eq (l : List α) : cmp l l = .eq := by
  rw [cmp, cmpUsing, if_neg (lt_irrefl l), if_neg (lt_irrefl l)]

lemma cmp_eq_lt {l m : List α} : cmp l m = .lt ↔ l < m := by
  rcases lt_trichotomy l m with h | rfl | h
  · exact iff_of_true (cmp_of_lt h) h
  · rw [cmp_of_eq]
    exact iff_of_false (by decide) (lt_irrefl _)
  · rw [cmp_of_gt h]
    exact iff_of_false (by decide) (lt_asymm h)

lemma eq_of_cmp_eq {l m : List α} (h : cmp l m = .eq) : l = m := by
  rcases lt_trichotomy l m with hlt | heq | hgt
  · rw [cmp_of_lt hlt] at h
    cases h
  · exact heq
  · rw [cmp_of_gt hgt] at h
    cases h

/-- Behind a part they share, lists compare as they do. -/
lemma cmp_drop {l m : List α} {n : ℕ} (h : l.take n = m.take n) :
    cmp (l.drop n) (m.drop n) = cmp l m := by
  rcases lt_trichotomy l m with hlm | rfl | hlm
  · rw [cmp_of_lt hlm, cmp_of_lt ((drop_lt_drop_iff h).mpr hlm)]
  · rw [cmp_of_eq, cmp_of_eq]
  · rw [cmp_of_gt hlm, cmp_of_gt ((drop_lt_drop_iff h.symm).mpr hlm)]

/-- Lists with first parts of one length compare by those, and by what is behind only where they are
the same. -/
lemma cmp_append {a b : List α} (h : a.length = b.length) (l m : List α) :
    cmp (a ++ l) (b ++ m) = (cmp a b).then (cmp l m) := by
  induction a generalizing b with
  | nil =>
      rw [List.length_eq_zero_iff.mp h.symm, cmp_of_eq]
      rfl
  | cons x a ih =>
      cases b with
      | nil => simp at h
      | cons y b =>
          rw [List.length_cons, List.length_cons, Nat.add_right_cancel_iff] at h
          have ih := ih h
          rw [List.cons_append, List.cons_append]
          rcases lt_trichotomy x y with hxy | rfl | hxy
          · rw [cmp_of_lt (cons_lt_cons.mpr (Or.inl hxy)), cmp_of_lt (cons_lt_cons.mpr (Or.inl hxy))]
            rfl
          · have hcons : ∀ l m : List α, cmp (x :: l) (x :: m) = cmp l m := by
              intro l m
              rcases lt_trichotomy l m with hlm | rfl | hlm
              · rw [cmp_of_lt hlm, cmp_of_lt (cons_lt_cons.mpr (Or.inr ⟨rfl, hlm⟩))]
              · rw [cmp_of_eq, cmp_of_eq]
              · rw [cmp_of_gt hlm, cmp_of_gt (cons_lt_cons.mpr (Or.inr ⟨rfl, hlm⟩))]
            rw [hcons, hcons, ih]
          · rw [cmp_of_gt (cons_lt_cons.mpr (Or.inl hxy)), cmp_of_gt (cons_lt_cons.mpr (Or.inl hxy))]
            rfl

end StorageLib

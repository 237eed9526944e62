import Mathlib.Tactic.Ring

/-!
# Winner trees

Players are matched in a tree kept in a row of nodes: the children of node `n` are `2 n` and `2 n +
1`, player `i` has the leaf `width + i`, and every node holds the winner of the match between its
children, the player of the lesser rank, and the left one of a tie.  Node 1 is the root.

* `under` – the nodes a player's matches are played at: its leaf, and the halves of its leaf's
  number.
* `WinnerTree.root_le` – **nobody beats the root.**
* `WinnerTree.replay` – **one player's rank changes**: once the matches from its leaf up have been
  played again, one after another, every match is right.  While they are, the matches left to play
  are those at the node at hand and at its halves (`PlayedBut`).
* `PlayedFrom.step` – the tree is built from the last match to the first.

Nothing is asked of the width but that somebody plays.
-/

namespace StorageLib

variable {κ : Type} [LinearOrder κ]

/-- Who wins a match: the lesser rank, the left one of a tie. -/
def winner (rank : ℕ → κ) (a b : ℕ) : ℕ := if rank b < rank a then b else a

/-- The match at a node is won by who stands there. -/
def Played (rank : ℕ → κ) (t : ℕ → ℕ) (n : ℕ) : Prop := t n = winner rank (t (2 * n))
    (t (2 * n + 1))

/-- Every leaf has its player, and every match its winner. -/
structure WinnerTree (rank : ℕ → κ) (width : ℕ) (t : ℕ → ℕ) : Prop where
  leaf : ∀ i < width, t (width + i) = i
  played : ∀ n, 0 < n → n < width → Played rank t n

/-- A node on the way from another up. -/
def above (x n : ℕ) : Prop := ∃ d, x / 2 ^ d = n

section Above

variable {x n : ℕ}

lemma above_refl (x : ℕ) : above x x := ⟨0, by simp⟩

/-- Halving goes up. -/
lemma above.half (h : above x n) : above x (n / 2) := by
  obtain ⟨d, rfl⟩ := h
  exact ⟨d + 1, by rw [pow_succ, Nat.div_div_eq_div_mul]⟩

/-- The way up from a node begins at it and goes on from its half. -/
lemma above_iff_half : above x n ↔ x = n ∨ above (x / 2) n := by
  constructor
  · rintro ⟨d, rfl⟩
    cases d with
    | zero => exact Or.inl (by simp)
    | succ d => exact Or.inr ⟨d, by rw [Nat.div_div_eq_div_mul, pow_succ, mul_comm]⟩
  · rintro (rfl | ⟨d, rfl⟩)
    · exact above_refl _
    · exact ⟨d + 1, by rw [Nat.div_div_eq_div_mul, pow_succ, mul_comm]⟩

/-- A node is above its children. -/
lemma above_of_child {c : ℕ} (h : above x c) (hc : c = 2 * n ∨ c = 2 * n + 1) : above x n := by
  have hhalf : c / 2 = n := by omega
  exact hhalf ▸ h.half

/-- Nothing is above nothing. -/
lemma not_above_zero (hn : 0 < n) : ¬ above 0 n := by
  rintro ⟨d, rfl⟩
  rw [Nat.zero_div] at hn
  exact lt_irrefl _ hn

/-- The root is above every node. -/
lemma above_one (hx : 0 < x) : above x 1 := by
  induction x using Nat.strong_induction_on with
  | _ x ih =>
      by_cases hone : x = 1
      · exact hone ▸ above_refl _
      · exact above_iff_half.mpr (Or.inr (ih (x / 2) (by omega) (by omega)))

end Above

section Winner

variable {rank : ℕ → κ} {width n i : ℕ} {t : ℕ → ℕ}

lemma winner_eq_or (rank : ℕ → κ) (a b : ℕ) : winner rank a b = a ∨ winner rank a b = b := by
  rw [winner]
  split_ifs
  · exact Or.inr rfl
  · exact Or.inl rfl

lemma rank_winner_le (rank : ℕ → κ) (a b : ℕ) :
    rank (winner rank a b) ≤ rank a ∧ rank (winner rank a b) ≤ rank b := by
  rw [winner]
  split_ifs with h
  · exact ⟨h.le, le_refl _⟩
  · exact ⟨le_refl _, not_lt.mp h⟩

/-- Who stands at a node plays, and under it. -/
lemma WinnerTree.stands (h : WinnerTree rank width t) (hn : 0 < n) (hlt : n < 2 * width) :
    t n < width ∧ above (width + t n) n := by
  induction hm : 2 * width - n using Nat.strong_induction_on generalizing n with
  | _ m ih =>
      by_cases hleaf : width ≤ n
      · have hplayer := h.leaf (n - width) (by omega)
        rw [Nat.add_sub_cancel' hleaf] at hplayer
        rw [hplayer, Nat.add_sub_cancel' hleaf]
        exact ⟨by omega, above_refl _⟩
      · obtain ⟨hl, hul⟩ := ih (2 * width - 2 * n) (by omega) (n := 2 * n) (by omega) (by omega) rfl
        obtain ⟨hr, hur⟩ := ih (2 * width - (2 * n + 1)) (by omega) (n := 2 * n + 1) (by omega) (by omega) rfl
        rw [h.played n hn (by omega)]
        rcases winner_eq_or rank (t (2 * n)) (t (2 * n + 1)) with hw | hw
        · rw [hw]
          exact ⟨hl, above_of_child hul (Or.inl rfl)⟩
        · rw [hw]
          exact ⟨hr, above_of_child hur (Or.inr rfl)⟩

/-- Nobody under a node beats who stands there. -/
lemma WinnerTree.rank_le (h : WinnerTree rank width t) (hi : i < width) (hn : 0 < n)
    (hup : above (width + i) n) : rank (t n) ≤ rank i := by
  obtain ⟨d, hd⟩ := hup
  induction d generalizing n with
  | zero =>
      rw [pow_zero, Nat.div_one] at hd
      rw [← hd, h.leaf i hi]
  | succ d ih =>
      -- the child on the player's way
      set c := (width + i) / 2 ^ d with hc
      have hhalf : c / 2 = n := by rw [hc, Nat.div_div_eq_div_mul, ← pow_succ, hd]
      have hle : c ≤ width + i := Nat.div_le_self _ _
      have hchild := ih (n := c) (by omega) rfl
      obtain ⟨hleft, hright⟩ := rank_winner_le rank (t (2 * n)) (t (2 * n + 1))
      rw [h.played n hn (by omega)]
      rcases (by omega : c = 2 * n ∨ c = 2 * n + 1) with hcl | hcr
      · rw [hcl] at hchild
        exact hleft.trans hchild
      · rw [hcr] at hchild
        exact hright.trans hchild

/-- **Nobody beats the root.** -/
theorem WinnerTree.root_le (h : WinnerTree rank width t) (hi : i < width) :
    t 1 < width ∧ rank (t 1) ≤ rank i :=
  ⟨(h.stands Nat.one_pos (by omega)).1, h.rank_le hi Nat.one_pos (above_one (by omega))⟩

end Winner

/-! ## Playing again -/

section Replay

variable {rank rank' : ℕ → κ} {width n r : ℕ} {t : ℕ → ℕ}

/-- Every leaf has its player, and every match its winner but those at `x` and above it. -/
structure PlayedBut (rank : ℕ → κ) (width x : ℕ) (t : ℕ → ℕ) : Prop where
  leaf : ∀ i < width, t (width + i) = i
  played : ∀ n, 0 < n → n < width → ¬ above x n → Played rank t n

/-- **A player's rank changes**: the matches of the others are right. -/
lemma WinnerTree.changed (h : WinnerTree rank width t) (hsame : ∀ i, i ≠ r → rank' i = rank i) :
    PlayedBut rank' width ((width + r) / 2) t where
  leaf := h.leaf
  played := by
    intro n hn hlt hnot
    have hapart : ∀ c, c = 2 * n ∨ c = 2 * n + 1 → t c ≠ r := by
      intro c hc hr
      have hup := (h.stands (n := c) (by omega) (by omega)).2
      rw [hr] at hup
      have hin := above_of_child hup hc
      rcases above_iff_half.mp hin with heq | habove
      · omega
      · exact hnot habove
    rw [Played, winner, hsame _ (hapart _ (Or.inl rfl)), hsame _ (hapart _ (Or.inr rfl))]
    exact h.played n hn hlt

/-- **One match played again.** -/
lemma PlayedBut.step (h : PlayedBut rank width n t) (hlt : n < width) :
    PlayedBut rank width (n / 2)
    (Function.update t n (winner rank (t (2 * n)) (t (2 * n + 1)))) where
  leaf := by
    intro i hi
    rw [Function.update_of_ne (by omega)]
    exact h.leaf i hi
  played := by
    intro m hm hmlt hnot
    have hleft : 2 * m ≠ n := by
      rintro rfl
      refine hnot ?_
      rw [Nat.mul_div_cancel_left _ Nat.two_pos]
      exact above_refl m
    have hright : 2 * m + 1 ≠ n := by
      rintro rfl
      refine hnot ?_
      rw [show (2 * m + 1) / 2 = m by omega]
      exact above_refl m
    rw [Played, Function.update_of_ne hleft, Function.update_of_ne hright]
    by_cases hmn : m = n
    · rw [hmn, Function.update_self]
    · rw [Function.update_of_ne hmn]
      refine h.played m hm hmlt (fun habove => ?_)
      rcases above_iff_half.mp habove with heq | habove
      · exact hmn heq.symm
      · exact hnot habove

/-- No match is left. -/
lemma PlayedBut.done (h : PlayedBut rank width 0 t) : WinnerTree rank width t :=
  ⟨h.leaf, fun n hn hlt => h.played n hn hlt (not_above_zero hn)⟩

end Replay

/-! ## Building -/

section Build

variable {rank : ℕ → κ} {width n : ℕ} {t : ℕ → ℕ}

/-- Every leaf has its player, and every match from `n` on its winner. -/
structure PlayedFrom (rank : ℕ → κ) (width n : ℕ) (t : ℕ → ℕ) : Prop where
  leaf : ∀ i < width, t (width + i) = i
  played : ∀ m, n ≤ m → m < width → Played rank t m

/-- **One match more**, below those that are played. -/
lemma PlayedFrom.step (h : PlayedFrom rank width (n + 1) t) (hlt : n < width) (hn : 0 < n) :
    PlayedFrom rank width n (Function.update t n (winner rank (t (2 * n)) (t (2 * n + 1)))) where
  leaf := by
    intro i hi
    rw [Function.update_of_ne (by omega)]
    exact h.leaf i hi
  played := by
    intro m hm hmlt
    have hleft : 2 * m ≠ n := by omega
    have hright : 2 * m + 1 ≠ n := by omega
    rw [Played, Function.update_of_ne hleft, Function.update_of_ne hright]
    rcases Nat.eq_or_lt_of_le hm with rfl | hgt
    · rw [Function.update_self]
    · rw [Function.update_of_ne (by omega)]
      exact h.played m hgt hmlt

lemma PlayedFrom.done (h : PlayedFrom rank width 1 t) : WinnerTree rank width t :=
  ⟨h.leaf, fun n hn hlt => h.played n hn hlt⟩

end Build

end StorageLib

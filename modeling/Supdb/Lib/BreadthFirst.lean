import Mathlib.Tactic

/-!
# Search trees laid out breadth first

A balanced tree of `n` nodes needs no pointers: node `1` is the root and node `i` has the children
`2 * i` and `2 * i + 1`.  An in-order walk visits the nodes in some order; giving the `k`-th node
visited the `k`-th of `n` ascending words makes the layout a search tree.

* `inorder n i` – the nodes below `i`, in the order of the walk.
* `descend p n i` – the search: right where `p` holds of the node, left where it does not, until it
  falls off the tree.
* `lastLeft j` – the node of the last step to the left, read from the bits of where the search fell
  off.

**`lastLeft_descend`**: when `p` holds of a first part of the walk and of nothing behind it, the
last step to the left was taken at the first node in the walk where `p` fails.  `inorder_perm` says
that the walk visits every node once.
-/

namespace StorageLib

/-! ## The walk -/

/-- The nodes of the subtree at `i`, in order. -/
def inorder (n i : ℕ) : List ℕ :=
  if _h : 0 < i ∧ i ≤ n then inorder n (2 * i) ++ i :: inorder n (2 * i + 1) else []
termination_by n + 1 - i
decreasing_by all_goals omega

lemma inorder_of_le {n i : ℕ} (h : 0 < i) (hn : i ≤ n) :
    inorder n i = inorder n (2 * i) ++ i :: inorder n (2 * i + 1) := by
  rw [inorder, dif_pos ⟨h, hn⟩]

lemma inorder_of_gt {n i : ℕ} (h : n < i) : inorder n i = [] := by
  rw [inorder, dif_neg (by omega)]

/-- The nodes below `i` are those that a chain of halvings takes to `i`. -/
lemma mem_inorder {n i m : ℕ} (hi : 0 < i) : m ∈ inorder n i ↔ m ≤ n ∧ ∃ k, m / 2 ^ k = i := by
  induction hd : n + 1 - i using Nat.strong_induction_on generalizing i with
  | _ d ih =>
      have hdiv : ∀ k, m / 2 ^ (k + 1) = m / 2 ^ k / 2 := by
        intro k
        rw [pow_succ, Nat.div_div_eq_div_mul]
      by_cases hn : i ≤ n
      · rw [inorder_of_le hi hn, List.mem_append, List.mem_cons, ih _ (by omega) (by omega) rfl,
          ih _ (by omega) (by omega) rfl]
        constructor
        · rintro (⟨hm, k, hk⟩ | rfl | ⟨hm, k, hk⟩)
          · exact ⟨hm, k + 1, by rw [hdiv, hk]; omega⟩
          · exact ⟨hn, 0, by simp⟩
          · exact ⟨hm, k + 1, by rw [hdiv, hk]; omega⟩
        · rintro ⟨hm, k, hk⟩
          cases k with
          | zero => exact Or.inr (Or.inl (by simpa using hk))
          | succ k =>
              rw [hdiv] at hk
              rcases Nat.mod_two_eq_zero_or_one (m / 2 ^ k) with h0 | h1
              · exact Or.inl ⟨hm, k, by omega⟩
              · exact Or.inr (Or.inr ⟨hm, k, by omega⟩)
      · rw [inorder_of_gt (by omega)]
        constructor
        · intro h
          exact absurd h (by simp)
        · rintro ⟨hm, k, hk⟩
          have := Nat.div_le_self m (2 ^ k)
          omega

/-- No node is below both children of a node, nor is the node itself. -/
lemma inorder_nodup {n i : ℕ} (hi : 0 < i) : (inorder n i).Nodup := by
  induction hd : n + 1 - i using Nat.strong_induction_on generalizing i with
  | _ d ih =>
      by_cases hn : i ≤ n
      · have hleft := ih _ (by omega) (by omega : 0 < 2 * i) rfl
        have hright := ih _ (by omega) (by omega : 0 < 2 * i + 1) rfl
        rw [inorder_of_le hi hn, List.nodup_append, List.nodup_cons]
        have hge : ∀ {j m}, 0 < j → m ∈ inorder n j → j ≤ m := by
          intro j m hj hm
          obtain ⟨-, k, hk⟩ := (mem_inorder hj).mp hm
          have := Nat.div_le_self m (2 ^ k)
          omega
        refine ⟨hleft, ⟨fun h => ?_, hright⟩, ?_⟩
        · have := hge (by omega) h
          omega
        · intro a ha b hb hab
          subst hab
          rcases List.mem_cons.mp hb with rfl | hb
          · have := hge (by omega) ha
            omega
          · -- the halvings that end in the one child and in the other cannot both be of `a`
            obtain ⟨-, k, hk⟩ := (mem_inorder (by omega)).mp ha
            obtain ⟨-, l, hl⟩ := (mem_inorder (by omega)).mp hb
            rcases lt_trichotomy k l with h | rfl | h
            · have hsplit : a / 2 ^ l = a / 2 ^ k / 2 ^ (l - k) := by
                rw [Nat.div_div_eq_div_mul, ← pow_add, Nat.add_sub_cancel' h.le]
              have hhalf : a / 2 ^ k / 2 ^ (l - k) ≤ a / 2 ^ k / 2 := by
                apply Nat.div_le_div_left _ (by norm_num)
                exact Nat.le_self_pow (by omega) 2
              omega
            · omega
            · have hsplit : a / 2 ^ k = a / 2 ^ l / 2 ^ (k - l) := by
                rw [Nat.div_div_eq_div_mul, ← pow_add, Nat.add_sub_cancel' h.le]
              have hhalf : a / 2 ^ l / 2 ^ (k - l) ≤ a / 2 ^ l / 2 := by
                apply Nat.div_le_div_left _ (by norm_num)
                exact Nat.le_self_pow (by omega) 2
              omega
      · rw [inorder_of_gt (by omega)]
        exact List.nodup_nil

/-- **The walk from the root visits every node once.** -/
theorem inorder_perm (n : ℕ) : (inorder n 1).Perm (List.range' 1 n) := by
  refine (List.perm_ext_iff_of_nodup (inorder_nodup (by norm_num)) List.nodup_range').mpr ?_
  intro m
  rw [mem_inorder (by norm_num), List.mem_range'_1]
  constructor
  · rintro ⟨hm, k, hk⟩
    have hpos : 0 < m := by
      rcases Nat.eq_zero_or_pos m with rfl | h
      · simp at hk
      · exact h
    omega
  · rintro ⟨hpos, hm⟩
    refine ⟨by omega, Nat.log 2 m, ?_⟩
    exact Nat.div_eq_of_lt_le (by rw [one_mul]; exact Nat.pow_log_le_self 2 (by omega))
      (by rw [Nat.succ_mul,
      one_mul, ← two_mul, ← pow_succ']; exact Nat.lt_pow_succ_log_self (by norm_num) m)

lemma length_inorder (n : ℕ) : (inorder n 1).length = n := by
  rw [(inorder_perm n).length_eq, List.length_range']

/-! ## The search -/

/-- Where the search falls off the tree. -/
def descend (p : ℕ → Bool) (n i : ℕ) : ℕ :=
  if _h : 0 < i ∧ i ≤ n then descend p n (2 * i + if p i then 1 else 0) else i
termination_by n + 1 - i
decreasing_by split <;> omega

/-- `trailing_ones`. -/
def trailingOnes (j : ℕ) : ℕ := if _h : j % 2 = 1 then trailingOnes (j / 2) + 1 else 0
termination_by j
decreasing_by omega

/-- The node of the last step to the left, zero where every step went right. -/
def lastLeft (j : ℕ) : ℕ := j >>> (trailingOnes j + 1)

lemma lastLeft_left (i : ℕ) : lastLeft (2 * i) = i := by
  rw [lastLeft, trailingOnes, dif_neg (by omega), Nat.shiftRight_eq_div_pow]
  omega

lemma lastLeft_right (i : ℕ) : lastLeft (2 * i + 1) = lastLeft i := by
  have hhalf : (2 * i + 1) / 2 = i := by omega
  rw [lastLeft, trailingOnes, dif_pos (by omega), hhalf, lastLeft, Nat.shiftRight_eq_div_pow,
    Nat.shiftRight_eq_div_pow, pow_succ' 2 (trailingOnes i + 1), ← Nat.div_div_eq_div_mul, hhalf]

/-- **Where the last step to the left was taken.**  With `p` true of a first part of the walk only,
it is the first node of the walk where `p` fails; the last step to the left before the subtree where
there is none. -/
theorem lastLeft_descend {p : ℕ → Bool} {n i : ℕ} (hi : 0 < i)
    (hp : (inorder n i).Pairwise (fun a b => p b = true → p a = true)) :
    lastLeft (descend p n i) = ((inorder n i).find? (fun m => !p m)).getD (lastLeft i) := by
  induction hd : n + 1 - i using Nat.strong_induction_on generalizing i with
  | _ d ih =>
      by_cases hn : i ≤ n
      · rw [inorder_of_le hi hn] at hp ⊢
        rw [List.pairwise_append, List.pairwise_cons] at hp
        obtain ⟨hleft, ⟨-, hright⟩, hcross⟩ := hp
        rw [descend, dif_pos ⟨hi, hn⟩, List.find?_append, List.find?_cons]
        cases hpi : p i with
        | true =>
            -- everything left of `i` holds too
            have hnone : (inorder n (2 * i)).find? (fun m => !p m) = none := by
              rw [List.find?_eq_none]
              intro a ha
              have := hcross a ha i (List.mem_cons_self ..) hpi
              simp [this]
            rw [hnone, if_pos rfl, ih _ (by omega) (by omega) hright rfl, lastLeft_right]
            rfl
        | false =>
            rw [if_neg (by simp), Nat.add_zero, ih _ (by omega) (by omega) hleft rfl, lastLeft_left]
            cases (inorder n (2 * i)).find? (fun m => !p m) with
            | none => rfl
            | some m => rfl
      · rw [inorder_of_gt (by omega), descend, dif_neg (by omega)]
        rfl

end StorageLib

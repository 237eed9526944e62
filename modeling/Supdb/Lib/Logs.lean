import Mathlib.Tactic

/-!
# One history over several logs

A **history** is a list of batches in the order they were written, each with the log it went to.  A
loss cuts every log on its own: it keeps some number of a log's batches, from its first on, and no
fewer than are durable.  What is left of the history is then any mixture of the logs' prefixes, and
it is a prefix of the history itself only where the logs were synced in its order.

* `survivors` – the history under such a cut.
* `InOrder` – behind a batch that is not durable only batches of its own log were written.
* `survivors_prefix` – **a cut of a history in order is a prefix of it**.
* `prod_filter_mul_prod_filter` – one kind of batch read back before the other, where those that
  change places commute.
-/

namespace StorageLib

variable {ι β : Type} [DecidableEq ι]

/-- What a history keeps where each log keeps its first `cut` batches. -/
def survivors (cut : ι → ℕ) : List (ι × β) → List (ι × β)
  | [] => []
  | e :: h =>
      if 0 < cut e.1 then e :: survivors (Function.update cut e.1 (cut e.1 - 1)) h
      else survivors cut h

/-- How many batches of a history went to a log. -/
def countIn (l : ι) (h : List (ι × β)) : ℕ := h.countP (fun e => e.1 = l)

/-- Behind the first batch of a log that is not durable, only that log was written to. -/
def InOrder (durable : ι → ℕ) : List (ι × β) → Prop
  | [] => True
  | e :: h =>
      if 0 < durable e.1 then InOrder (Function.update durable e.1 (durable e.1 - 1)) h
      else ∀ x ∈ h, x.1 = e.1

section Count

variable (l : ι) (e : ι × β) (h h' : List (ι × β))

@[simp] lemma countIn_nil : countIn l ([] : List (ι × β)) = 0 := rfl

lemma countIn_cons : countIn l (e :: h) = countIn l h + if e.1 = l then 1 else 0 := by
  simp [countIn, List.countP_cons]

lemma countIn_append : countIn l (h ++ h') = countIn l h + countIn l h' := by
  simp [countIn]

end Count

section Survivors

variable {cut : ι → ℕ} {h h' : List (ι × β)} {l : ι}

lemma survivors_sublist : (survivors cut h).Sublist h := by
  induction h generalizing cut with
  | nil => exact List.Sublist.refl _
  | cons e h ih =>
      rw [survivors]
      split_ifs
      · exact ih.cons_cons e
      · exact ih.cons e

lemma update_le {f g : ι → ℕ} (hle : ∀ l, f l ≤ g l) (a : ι) :
    ∀ l, Function.update f a (f a - 1) l ≤ Function.update g a (g a - 1) l := by
  intro l
  rcases eq_or_ne l a with rfl | hne
  · simp only [Function.update_self]
    exact Nat.sub_le_sub_right (hle l) 1
  · simp only [Function.update_of_ne hne]
    exact hle l

/-- A cut that keeps every log whole loses nothing. -/
lemma survivors_of_count_le (hall : ∀ l, countIn l h ≤ cut l) : survivors cut h = h := by
  induction h generalizing cut with
  | nil => rfl
  | cons e h ih =>
      have hpos : 0 < cut e.1 := by
        have := hall e.1
        rw [countIn_cons, if_pos rfl] at this
        omega
      rw [survivors, if_pos hpos, ih]
      intro l
      have := hall l
      rw [countIn_cons] at this
      rcases eq_or_ne l e.1 with rfl | hne
      · rw [if_pos rfl] at this
        rw [Function.update_self]
        omega
      · rw [if_neg hne.symm] at this
        rw [Function.update_of_ne hne]
        omega

lemma survivors_congr {cut' : ι → ℕ} (hcut : ∀ x ∈ h, cut x.1 = cut' x.1) :
    survivors cut h = survivors cut' h := by
  induction h generalizing cut cut' with
  | nil => rfl
  | cons e h ih =>
      obtain ⟨he, hh⟩ := List.forall_mem_cons.mp hcut
      rw [survivors, survivors, he]
      split_ifs
      · congr 1
        refine ih (fun x hx => ?_)
        rcases eq_or_ne x.1 e.1 with heq | hne
        · rw [heq, Function.update_self, Function.update_self]
        · rw [Function.update_of_ne hne, Function.update_of_ne hne]
          exact hh x hx
      · exact ih hh

/-- A cut of some logs of a history. -/
lemma survivors_filter (p : ι → Bool) :
    (survivors cut h).filter (fun e => p e.1) = survivors cut (h.filter (fun e => p e.1)) := by
  induction h generalizing cut with
  | nil => rfl
  | cons e h ih =>
      by_cases hp : p e.1 = true
      · simp only [List.filter_cons, hp, if_true, survivors]
        split_ifs
        · simp only [List.filter_cons, hp, if_true, ih]
        · exact ih
      · simp only [List.filter_cons, hp, Bool.false_eq_true, if_false, survivors]
        split_ifs
        · simp only [List.filter_cons, hp, Bool.false_eq_true, if_false]
          refine ih.trans (survivors_congr fun x hx => Function.update_of_ne ?_ _ _)
          rintro heq
          rw [← heq] at hp
          exact hp (List.mem_filter.mp hx).2
        · exact ih

/-- A cut of one log. -/
lemma survivors_of_log (bs : List β) :
    survivors cut (bs.map (fun b => (l, b))) = (bs.take (cut l)).map (fun b => (l, b)) := by
  induction bs generalizing cut with
  | nil => simp [survivors]
  | cons b bs ih =>
      rw [List.map_cons, survivors]
      split_ifs with hpos
      · obtain ⟨n, hn⟩ := Nat.exists_eq_add_of_lt hpos
        rw [ih, Function.update_self, hn]
        simp
      · rw [ih]
        simp only at hpos
        simp [Nat.eq_zero_of_not_pos hpos]

lemma survivors_append (hapart : ∀ x ∈ h, ∀ y ∈ h', x.1 ≠ y.1) :
    survivors cut (h ++ h') = survivors cut h ++ survivors cut h' := by
  induction h generalizing cut with
  | nil => rfl
  | cons e h ih =>
      obtain ⟨he, hh⟩ := List.forall_mem_cons.mp hapart
      rw [List.cons_append, survivors, survivors, ih hh, ih hh]
      split_ifs
      · rw [List.cons_append]
        congr 2
        exact survivors_congr fun y hy => Function.update_of_ne (he y hy).symm _ _
      · rfl

/-- A cut of logs written one after the other. -/
lemma survivors_flatMap {α : Type} {log : α → ι} {batches : α → List β} {as : List α}
    (hnodup : (as.map log).Nodup) :
    survivors cut (as.flatMap (fun a => (batches a).map (fun b => (log a, b))))
      = as.flatMap (fun a => ((batches a).take (cut (log a))).map (fun b => (log a, b))) := by
  induction as with
  | nil => rfl
  | cons a as ih =>
      rw [List.map_cons, List.nodup_cons] at hnodup
      rw [List.flatMap_cons, List.flatMap_cons, survivors_append, survivors_of_log, ih hnodup.2]
      intro x hx y hy heq
      obtain ⟨b, -, rfl⟩ := List.mem_map.mp hx
      obtain ⟨a', ha', hy⟩ := List.mem_flatMap.mp hy
      obtain ⟨b', -, rfl⟩ := List.mem_map.mp hy
      exact hnodup.1 (List.mem_map.mpr ⟨a', ha', heq.symm⟩)

end Survivors

section Order

variable {durable durable' cut : ι → ℕ} {h h' : List (ι × β)} {l : ι}

/-- A history in one log is in order. -/
lemma inOrder_of_log (hlog : ∀ x ∈ h, x.1 = l) : InOrder durable h := by
  induction h generalizing durable with
  | nil => trivial
  | cons e h ih =>
      obtain ⟨he, hh⟩ := List.forall_mem_cons.mp hlog
      rw [InOrder]
      split_ifs
      · exact ih hh
      · exact fun x hx => (hh x hx).trans he.symm

/-- A cut keeps nothing of a log whose first batch it loses. -/
lemma survivors_of_lost (hlog : ∀ x ∈ h, x.1 = l) (hcut : cut l = 0) : survivors cut h = [] := by
  induction h with
  | nil => rfl
  | cons e h ih =>
      obtain ⟨he, hh⟩ := List.forall_mem_cons.mp hlog
      rw [survivors, he, if_neg (by omega), ih hh]

/-- **A cut of a history in order is a prefix of it**, where it keeps what is durable. -/
lemma survivors_prefix (horder : InOrder durable h) (hle : ∀ l, durable l ≤ cut l) :
    survivors cut h <+: h := by
  induction h generalizing durable cut with
  | nil => exact List.prefix_refl _
  | cons e h ih =>
      rw [InOrder] at horder
      rw [survivors]
      by_cases hcut : 0 < cut e.1
      · rw [if_pos hcut]
        refine (List.prefix_cons_inj e).mpr ?_
        by_cases hdur : 0 < durable e.1
        · rw [if_pos hdur] at horder
          exact ih horder (update_le hle e.1)
        · rw [if_neg hdur] at horder
          exact ih (inOrder_of_log horder) (fun l => Nat.zero_le _)
      · have hdur : ¬ 0 < durable e.1 := fun hpos => hcut (lt_of_lt_of_le hpos (hle e.1))
        rw [if_neg hdur] at horder
        rw [if_neg hcut, survivors_of_lost horder (Nat.eq_zero_of_not_pos hcut)]
        exact List.nil_prefix

/-- What is durable grows. -/
lemma InOrder.mono (horder : InOrder durable h) (hle : ∀ l, durable l ≤ durable' l) :
    InOrder durable' h := by
  induction h generalizing durable durable' with
  | nil => trivial
  | cons e h ih =>
      rw [InOrder] at horder ⊢
      by_cases hdur : 0 < durable e.1
      · rw [if_pos hdur] at horder
        rw [if_pos (lt_of_lt_of_le hdur (hle e.1))]
        exact ih horder (update_le hle e.1)
      · rw [if_neg hdur] at horder
        split_ifs
        · exact inOrder_of_log horder
        · exact horder

/-- A batch written while every other log is durable. -/
lemma InOrder.snoc (horder : InOrder durable h) {e : ι × β}
    (hdone : ∀ l, l ≠ e.1 → countIn l h ≤ durable l) : InOrder durable (h ++ [e]) := by
  induction h generalizing durable with
  | nil => exact inOrder_of_log (l := e.1) (by simp)
  | cons x h ih =>
      rw [InOrder] at horder
      rw [List.cons_append, InOrder]
      split_ifs at horder ⊢ with hdur
      · refine ih horder (fun l hl => ?_)
        have := hdone l hl
        rw [countIn_cons] at this
        rcases eq_or_ne l x.1 with rfl | hne
        · rw [if_pos rfl] at this
          rw [Function.update_self]
          omega
        · rw [if_neg hne.symm] at this
          rw [Function.update_of_ne hne]
          omega
      · intro y hy
        rcases List.mem_append.mp hy with hy | hy
        · exact horder y hy
        · rw [List.mem_singleton.mp hy]
          by_contra hne
          have := hdone x.1 (Ne.symm hne)
          rw [countIn_cons, if_pos rfl] at this
          omega

/-- The first batches of a history taken away, with what they had of each log. -/
lemma InOrder.drop (horder : InOrder durable (h ++ h'))
    (hle : ∀ l, durable l ≤ countIn l h + durable' l) : InOrder durable' h' := by
  induction h generalizing durable with
  | nil => exact InOrder.mono horder (fun l => by simpa using hle l)
  | cons e h ih =>
      rw [List.cons_append, InOrder] at horder
      split_ifs at horder with hdur
      · refine ih horder (fun l => ?_)
        have := hle l
        rw [countIn_cons] at this
        rcases eq_or_ne l e.1 with rfl | hne
        · rw [if_pos rfl] at this
          rw [Function.update_self]
          omega
        · rw [if_neg hne.symm] at this
          rw [Function.update_of_ne hne]
          omega
      · exact inOrder_of_log (fun x hx => horder x (List.mem_append_right _ hx))

end Order

/-- **Two kinds of factor, one taken before the other**: nothing changes where those that change
places commute. -/
lemma prod_filter_mul_prod_filter {α M : Type} [Monoid M] (p : α → Bool) (f : α → M) (as : List α)
    (hcomm : as.Pairwise (fun a b => p a = false → p b = true → f a * f b = f b * f a)) :
    ((as.filter p).map f).prod * ((as.filter (fun a => !p a)).map f).prod = (as.map f).prod := by
  induction as with
  | nil => simp
  | cons a as ih =>
      obtain ⟨ha, has⟩ := List.pairwise_cons.mp hcomm
      rw [List.map_cons, List.prod_cons, ← ih has]
      cases hp : p a with
      | true => simp [hp, mul_assoc]
      | false =>
          have hmove : ∀ bs : List α, (∀ b ∈ bs, b ∈ as ∧ p b = true) →
              (bs.map f).prod * f a = f a * (bs.map f).prod := by
            intro bs hbs
            induction bs with
            | nil => simp
            | cons b bs ihb =>
                obtain ⟨hb, hbs⟩ := List.forall_mem_cons.mp hbs
                rw [List.map_cons, List.prod_cons, mul_assoc, ihb hbs, ← mul_assoc, ← mul_assoc,
                  ha b hb.1 hp hb.2]
          simp only [List.filter_cons, hp, Bool.false_eq_true, if_false, Bool.not_false, if_true,
            List.map_cons, List.prod_cons]
          rw [← mul_assoc, hmove _ (fun b hb => List.mem_filter.mp hb), mul_assoc]

end StorageLib

import Supdb.Lib.Search

/-!
# Walks over what is held

A **walk** goes through what some sorted sources hold, in order and each element once.  At any point
of it some elements are taken, all below those that are left.

* `Upto` – a point of a walk: what is held, what is taken, and what is left.
* `Upto.next` – the least of what is left, taken.
* `placeOf` – where a walk stands in one source: behind those of its elements that are taken.
-/

namespace StorageLib

variable {κ : Type} [LinearOrder κ]

/-- **A point of a walk.** -/
structure Upto (held : κ → Prop) (taken : κ → Bool) (rest : List κ) : Prop where
  sorted : rest.Pairwise (· < ·)
  mem : ∀ x, x ∈ rest ↔ held x ∧ taken x = false
  below : ∀ x k, taken x = true → k ∈ rest → x < k

namespace Upto

variable {held : κ → Prop} {taken : κ → Bool} {rest : List κ} {k : κ}

/-- Of what is held, what is below the next element is taken. -/
lemma at_head (h : Upto held taken (k :: rest)) {x : κ} (hx : held x) : taken x = true ↔ x < k := by
  refine ⟨fun htaken => h.below x k htaken List.mem_cons_self, fun hlt => ?_⟩
  by_contra hleft
  rcases List.mem_cons.mp ((h.mem x).mpr ⟨hx, Bool.eq_false_of_not_eq_true hleft⟩) with rfl | hmem
  · exact lt_irrefl _ hlt
  · exact lt_asymm hlt ((List.pairwise_cons.mp h.sorted).1 x hmem)

/-- **The next element taken.** -/
lemma next (h : Upto held taken (k :: rest)) {p : κ → Bool} (hp : ∀ x, p x = true ↔ x ≤ k) :
    Upto held p rest where
  sorted := (List.pairwise_cons.mp h.sorted).2
  mem x := by
    have hlt := (List.pairwise_cons.mp h.sorted).1
    rw [← Bool.not_eq_true, hp, not_le]
    constructor
    · intro hx
      exact ⟨((h.mem x).mp (List.mem_cons_of_mem _ hx)).1, hlt x hx⟩
    · rintro ⟨hx, hkx⟩
      have hleft : taken x = false := by
        rw [← Bool.not_eq_true, h.at_head hx]
        exact not_lt_of_gt hkx
      exact (List.mem_cons.mp ((h.mem x).mpr ⟨hx, hleft⟩)).resolve_left hkx.ne'
  below x y hx hy := ((hp x).mp hx).trans_lt ((List.pairwise_cons.mp h.sorted).1 y hy)

/-- The next element is held. -/
lemma held_head (h : Upto held taken (k :: rest)) : held k := ((h.mem k).mp List.mem_cons_self).1

/-- **A walk from a place.** -/
lemma start {all : List κ} (hsorted : all.Pairwise (· < ·)) (hheld : ∀ x, x ∈ all ↔ held x) {a : κ}
    {p q : κ → Bool}
    (hp : ∀ x, p x = true ↔ x < a) (hq : ∀ x, q x = true ↔ a ≤ x) : Upto held p (all.filter q) where
  sorted := hsorted.filter _
  mem x := by rw [List.mem_filter, hheld, hq, ← Bool.not_eq_true, hp, not_lt]
  below x y hx hy := ((hp x).mp hx).trans_le ((hq y).mp (List.mem_filter.mp hy).2)

end Upto

/-! ## One source -/

/-- Where a walk stands in a sorted source. -/
def placeOf (l : List κ) (taken : κ → Bool) : ℕ := (l.filter taken).length

section Place

variable {l : List κ} {p q : κ → Bool} {k : κ}

omit [LinearOrder κ] in
lemma placeOf_congr (h : ∀ x ∈ l, p x = q x) : placeOf l p = placeOf l q := by
  rw [placeOf, placeOf, List.filter_congr h]

omit [LinearOrder κ] in
lemma placeOf_zero (h : ∀ x ∈ l, p x = false) : placeOf l p = 0 := by
  rw [placeOf, List.length_eq_zero_iff, List.filter_eq_nil_iff]
  exact fun x hx => by simp [h x hx]

omit [LinearOrder κ] in
lemma placeOf_mono (h : ∀ x ∈ l, p x = true → q x = true) : placeOf l p ≤ placeOf l q := by
  rw [placeOf, placeOf, ← List.countP_eq_length_filter, ← List.countP_eq_length_filter]
  exact List.countP_mono_left h

/-- Below it is what is below the element, from it on what is not. -/
lemma drop_placeOf (hsorted : l.Pairwise (· < ·)) (hp : ∀ x y, x < y → p y = true → p x = true) :
    l.drop (placeOf l p) = l.filter (fun x => !p x) ∧ l.take (placeOf l p) = l.filter p := by
  induction l with
  | nil => exact ⟨rfl, rfl⟩
  | cons a l ih =>
      obtain ⟨ha, hl⟩ := List.pairwise_cons.mp hsorted
      by_cases hpa : p a = true
      · have hplace : placeOf (a :: l) p = placeOf l p + 1 := by
          rw [placeOf, placeOf, List.filter_cons_of_pos hpa, List.length_cons]
        rw [hplace, List.drop_succ_cons, List.take_succ_cons, (ih hl).1, (ih hl).2,
          List.filter_cons_of_pos hpa, List.filter_cons_of_neg (by simp [hpa])]
        exact ⟨rfl, rfl⟩
      · have hnone : ∀ x ∈ a :: l, p x = false := by
          intro x hx
          rcases List.mem_cons.mp hx with rfl | hx
          · exact Bool.eq_false_of_not_eq_true hpa
          · rw [← Bool.not_eq_true]
            exact fun hpx => hpa (hp a x (ha x hx) hpx)
        rw [placeOf_zero hnone, List.drop_zero, List.take_zero]
        refine ⟨(List.filter_eq_self.mpr (fun x hx => by rw [hnone x hx]; rfl)).symm,
          (List.filter_eq_nil_iff.mpr (fun x hx => ?_)).symm⟩
        simp [hnone x hx]

/-- What it stands on. -/
lemma getElem?_placeOf (hsorted : l.Pairwise (· < ·))
    (hp : ∀ x y, x < y → p y = true → p x = true) :
    l[placeOf l p]? = (l.filter (fun x => !p x)).head? := by
  rw [← (drop_placeOf hsorted hp).1, List.head?_drop]

section Below

variable (hsorted : l.Pairwise (· < ·)) (hp : ∀ x, p x = true ↔ x < k)

include hsorted hp

/-- **Of what is below an element**, it stands on that element where the source holds it. -/
lemma getElem?_placeOf_lt : l[placeOf l p]? = some k ↔ k ∈ l := by
  have hdown : ∀ x y : κ, x < y → p y = true → p x = true :=
    fun x y hxy hy => (hp x).mpr (hxy.trans ((hp y).mp hy))
  rw [getElem?_placeOf hsorted hdown]
  constructor
  · exact fun h => List.mem_of_mem_filter (List.mem_of_mem_head? h)
  · intro hk
    have hleft : ∀ x, (!p x) = true ↔ k ≤ x :=
      fun x => by rw [Bool.not_eq_true', ← Bool.not_eq_true, hp, not_lt]
    have hmem : k ∈ l.filter (fun x => !p x) := List.mem_filter.mpr ⟨hk, (hleft k).mpr (le_refl k)⟩
    obtain ⟨a, rest, heq⟩ := List.exists_cons_of_ne_nil (List.ne_nil_of_mem hmem)
    have hpair := hsorted.filter (fun x => !p x)
    rw [heq] at hmem hpair
    rw [heq, List.head?_cons]
    rcases List.mem_cons.mp hmem with rfl | hrest
    · rfl
    · have ha : a ∈ l.filter (fun x => !p x) := heq ▸ List.mem_cons_self
      have hka : k ≤ a := (hleft a).mp (List.mem_filter.mp ha).2
      exact absurd ((List.pairwise_cons.mp hpair).1 k hrest) (not_lt_of_ge hka)

/-- What it stands on is not below the element. -/
lemma le_getElem?_placeOf {x : κ} (hx : l[placeOf l p]? = some x) : k ≤ x := by
  have hdown : ∀ x y : κ, x < y → p y = true → p x = true :=
    fun x y hxy hy => (hp x).mpr (hxy.trans ((hp y).mp hy))
  rw [getElem?_placeOf hsorted hdown] at hx
  have hleft := (List.mem_filter.mp (List.mem_of_mem_head? hx)).2
  rwa [Bool.not_eq_true', ← Bool.not_eq_true, hp, not_lt] at hleft

/-- **One element on**, where the source holds it. -/
lemma placeOf_le (hq : ∀ x, q x = true ↔ x ≤ k) [Decidable (k ∈ l)] :
    placeOf l q = placeOf l p + if k ∈ l then 1 else 0 := by
  by_cases hk : k ∈ l
  · rw [if_pos hk]
    have hplace := (getElem?_placeOf_lt hsorted hp).mpr hk
    obtain ⟨hlt, hget⟩ := List.getElem?_eq_some_iff.mp hplace
    have hdown : ∀ x y : κ, x < y → q y = true → q x = true :=
      fun x y hxy hy => (hq x).mpr (hxy.le.trans ((hq y).mp hy))
    refine le_antisymm (not_lt.mp (fun hgt => ?_))
      (Nat.succ_le_of_lt ((le_iff_lt_length_filter hsorted hq _ hlt).mp hget.le))
    -- the one behind the element is not below it
    have hin : placeOf l p + 1 < l.length := hgt.trans_le (List.length_filter_le _ _)
    have hle := (le_iff_lt_length_filter hsorted hq _ hin).mpr hgt
    have hstep := List.pairwise_iff_getElem.mp hsorted _ _ hlt hin (Nat.lt_succ_self _)
    rw [hget] at hstep
    exact absurd hle (not_le_of_gt hstep)
  · rw [if_neg hk, Nat.add_zero]
    refine placeOf_congr (fun x hx => ?_)
    rw [Bool.eq_iff_iff, hp, hq]
    exact ⟨fun hle => lt_of_le_of_ne hle (fun heq => hk (heq ▸ hx)), le_of_lt⟩

/-- The halving loop between two places finds the place that counts what is below an element, cut to
them. -/
lemma partitionPoint_placeOf {lo hi : ℕ} (hhi : hi ≤ l.length) (hlo : lo ≤ placeOf l p)
    (hle : lo ≤ hi) : partitionPoint (fun i => l[i]?.any p) lo hi = min (placeOf l p) hi := by
  refine partitionPoint_eq (le_min hlo hle) (min_le_right _ _) (fun i _ hi' => ?_)
  have hil : i < l.length := hi'.trans_le hhi
  rw [List.getElem?_eq_getElem hil, Option.any_some, lt_min_iff, hp,
    lt_iff_lt_length_filter hsorted hp i hil]
  exact ⟨fun h => ⟨h, hi'⟩, fun h => h.1⟩

end Below

end Place

end StorageLib

import Mathlib.Tactic

/-!
# Merging sorted lists by rank

A **k-way merge** walks several sorted lists at once.  Each list has a *cursor*, a rank and the key
at it; a step takes the least key under any cursor, hands it on with every list it is tied in, and
moves those cursors on.

* `leastTied` – the least key under the cursors and where it is tied.
* `kmerge` – the walk, folding a fallible function over its steps.
* `kmerge_eq` – the walk visits every distinct key once, in increasing order, tied in exactly the
  lists that hold it and at its rank there.

Keys are read through a function of the list and the rank, either once a rank or again at every
step; the two walks are the same.
-/

namespace StorageLib

/-- Where a walk stands in one list. -/
structure Cursor (κ : Type) where
  rank : ℕ
  cur : Option κ
  deriving DecidableEq, Repr

section Sorted

variable {κ : Type} [LinearOrder κ]

/-- A sorted list is what lies below a bound, then the rest. -/
lemma filter_append_filter_not {l : List κ} (h : l.Pairwise (· < ·)) {p : κ → Bool}
    (hp : ∀ x y, x < y → p y = true → p x = true) :
    l.filter p ++ l.filter (fun x => !p x) = l := by
  induction l with
  | nil => rfl
  | cons a l ih =>
      obtain ⟨ha, hl⟩ := List.pairwise_cons.mp h
      by_cases hpa : p a = true
      · rw [List.filter_cons_of_pos hpa, List.filter_cons_of_neg (by simp [hpa]), List.cons_append,
          ih hl]
      · have hnone : l.filter p = [] := by
          rw [List.filter_eq_nil_iff]
          intro b hb hpb
          exact hpa (hp a b (ha b hb) hpb)
        have hall : (a :: l).filter (fun x => !p x) = a :: l := by
          rw [List.filter_eq_self]
          intro b hb
          rcases List.mem_cons.mp hb with rfl | hb
          · simpa using hpa
          · have : ¬ p b = true := fun hpb => hpa (hp a b (ha b hb) hpb)
            simpa using this
        rw [List.filter_cons_of_neg hpa, hnone, hall, List.nil_append]

/-- The key at the rank that counts what lies below a bound is the first that does not. -/
lemma getElem?_length_filter {l : List κ} (h : l.Pairwise (· < ·)) {p : κ → Bool}
    (hp : ∀ x y, x < y → p y = true → p x = true) :
    l[(l.filter p).length]? = (l.filter (fun x => !p x)).head? := by
  calc l[(l.filter p).length]?
      = (l.filter p ++ l.filter (fun x => !p x))[(l.filter p).length]? := by
        rw [filter_append_filter_not h hp]
    _ = (l.filter (fun x => !p x)).head? := by
        rw [List.getElem?_append_right (le_refl _), Nat.sub_self, List.head?_eq_getElem?]

end Sorted

section KMerge

variable {κ : Type} [LinearOrder κ] {σ ε : Type}

/-! ## The walk -/

/-- One cursor looked at: a smaller key starts the ties anew, an equal one joins them. -/
def tieStep (best : Option (κ × List (ℕ × ℕ))) (c : Cursor κ × ℕ) : Option (κ × List (ℕ × ℕ)) :=
  match c.1.cur with
  | none => best
  | some k =>
      match best with
      | none => some (k, [(c.2, c.1.rank)])
      | some (m, tied) =>
          if k < m then some (k, [(c.2, c.1.rank)])
          else if k = m then some (m, tied ++ [(c.2, c.1.rank)])
          else best

/-- The least key under the cursors, with every list it is tied in and its rank there. -/
def leastTied (cs : List (Cursor κ)) : Option (κ × List (ℕ × ℕ)) :=
  cs.zipIdx.foldl tieStep none

/-- Every cursor's key read again, unless they are kept. -/
def refresh (key : ℕ → ℕ → Option κ) (cached : Bool) (cs : List (Cursor κ)) : List (Cursor κ) :=
  if cached then cs else cs.mapIdx (fun i c => { c with cur := key i c.rank })

/-- The tied cursors moved on, each reading its new key where keys are kept. -/
def advance (key : ℕ → ℕ → Option κ) (cached : Bool) (tied : List (ℕ × ℕ)) (cs : List (Cursor κ)) :
    List (Cursor κ) :=
  cs.mapIdx (fun i c =>
    if i ∈ tied.map Prod.fst then
      { rank := c.rank + 1, cur := if cached then key i (c.rank + 1) else c.cur }
    else c)

/-- The walk from some cursors, `f` folded over its steps; `fuel` bounds the steps. -/
def kmergeLoop (key : ℕ → ℕ → Option κ) (cached : Bool)
    (f : σ → κ → List (ℕ × ℕ) → Except ε σ) : ℕ → List (Cursor κ) → σ → Except ε σ
  | 0, _, s => .ok s
  | fuel + 1, cs, s =>
      let cs := refresh key cached cs
      match leastTied cs with
      | none => .ok s
      | some (k, tied) => do
          let s ← f s k tied
          kmergeLoop key cached f fuel (advance key cached tied cs) s

/-- The walk of `m` lists from their first ranks. -/
def kmerge (key : ℕ → ℕ → Option κ) (cached : Bool) (f : σ → κ → List (ℕ × ℕ) → Except ε σ)
    (m fuel : ℕ) (s : σ) : Except ε σ :=
  kmergeLoop key cached f fuel ((List.range m).map (fun i => ⟨0, key i 0⟩)) s

/-! ## What the walk visits -/

/-- The rank of `k` in a sorted list: how many keys lie below it. -/
def rankIn (l : List κ) (k : κ) : ℕ := (l.filter (· < k)).length

/-- The lists that hold `k`, each with its rank there. -/
def tiedOf (ls : List (List κ)) (k : κ) : List (ℕ × ℕ) :=
  (ls.zipIdx.filter (fun l => k ∈ l.1)).map (fun l => (l.2, rankIn l.1 k))

/-- The cursors of a walk that has taken every key satisfying `p`. -/
def cursorsAt (ls : List (List κ)) (p : κ → Bool) : List (Cursor κ) :=
  ls.map (fun l => ⟨(l.filter p).length, (l.filter (fun x => !p x)).head?⟩)

omit [LinearOrder κ] in
lemma cursorsAt_congr {ls : List (List κ)} {p q : κ → Bool}
    (h : ∀ l ∈ ls, ∀ x ∈ l, p x = q x) : cursorsAt ls p = cursorsAt ls q := by
  refine List.map_congr_left (fun l hl => ?_)
  have hnot : ∀ x ∈ l, (!p x) = (!q x) := fun x hx => by rw [h l hl x hx]
  rw [List.filter_congr (h l hl), List.filter_congr hnot]

lemma foldl_tieStep_none (cs : List (Cursor κ × ℕ)) (h : ∀ c ∈ cs, c.1.cur = none) :
    cs.foldl tieStep none = none := by
  induction cs with
  | nil => rfl
  | cons c cs ih =>
      have hc : tieStep none c = none := by simp [tieStep, h c (List.mem_cons_self ..)]
      rw [List.foldl_cons, hc]
      exact ih (fun d hd => h d (List.mem_cons_of_mem _ hd))

lemma foldl_tieStep_least {k : κ} (cs : List (Cursor κ × ℕ)) (tied : List (ℕ × ℕ))
    (hle : ∀ c ∈ cs, ∀ x, c.1.cur = some x → k ≤ x) :
    cs.foldl tieStep (some (k, tied))
      = some (k, tied ++ (cs.filter (fun c => c.1.cur = some k)).map
          (fun c => (c.2, c.1.rank))) := by
  induction cs generalizing tied with
  | nil => simp
  | cons c cs ih =>
      have hcs : ∀ d ∈ cs, ∀ x, d.1.cur = some x → k ≤ x :=
        fun d hd => hle d (List.mem_cons_of_mem _ hd)
      rw [List.foldl_cons]
      cases hcur : c.1.cur with
      | none =>
          have hstep : tieStep (some (k, tied)) c = some (k, tied) := by simp [tieStep, hcur]
          rw [hstep, ih tied hcs, List.filter_cons_of_neg (by simp [hcur])]
      | some x =>
          have hkx := hle c (List.mem_cons_self ..) x hcur
          rcases eq_or_lt_of_le hkx with rfl | hlt
          · have hstep : tieStep (some (k, tied)) c = some (k, tied ++ [(c.2, c.1.rank)]) := by
              simp [tieStep, hcur]
            rw [hstep, ih _ hcs, List.filter_cons_of_pos (by simp [hcur])]
            simp
          · have hstep : tieStep (some (k, tied)) c = some (k, tied) := by
              simp [tieStep, hcur, not_lt_of_gt hlt, hlt.ne']
            rw [hstep, ih tied hcs, List.filter_cons_of_neg (by simp [hcur, hlt.ne'])]

lemma foldl_tieStep {k : κ} (cs : List (Cursor κ × ℕ)) (best : Option (κ × List (ℕ × ℕ)))
    (hbest : ∀ b, best = some b → k < b.1) (hle : ∀ c ∈ cs, ∀ x, c.1.cur = some x → k ≤ x)
    (hmem : ∃ c ∈ cs, c.1.cur = some k) :
    cs.foldl tieStep best = some (k, (cs.filter (fun c => c.1.cur = some k)).map
      (fun c => (c.2, c.1.rank))) := by
  induction cs generalizing best with
  | nil => exact absurd hmem (by simp)
  | cons c cs ih =>
      have hcs : ∀ d ∈ cs, ∀ x, d.1.cur = some x → k ≤ x :=
        fun d hd => hle d (List.mem_cons_of_mem _ hd)
      rw [List.foldl_cons]
      by_cases hc : c.1.cur = some k
      · have hstep : tieStep best c = some (k, [(c.2, c.1.rank)]) := by
          cases best with
          | none => simp [tieStep, hc]
          | some b =>
              obtain ⟨m, tied⟩ := b
              have : k < m := hbest (m, tied) rfl
              simp [tieStep, hc, this]
        rw [hstep, foldl_tieStep_least cs _ hcs, List.filter_cons_of_pos (by simpa using hc)]
        simp
      · have hrest : ∃ d ∈ cs, d.1.cur = some k := by
          obtain ⟨d, hd, hdk⟩ := hmem
          rcases List.mem_cons.mp hd with rfl | hd
          · exact absurd hdk hc
          · exact ⟨d, hd, hdk⟩
        have hstep : ∀ b, tieStep best c = some b → k < b.1 := by
          intro b hb
          cases hcur : c.1.cur with
          | none =>
              have : tieStep best c = best := by simp [tieStep, hcur]
              exact hbest b (this ▸ hb)
          | some x =>
              have hkx : k < x := lt_of_le_of_ne (hle c (List.mem_cons_self ..) x hcur)
                (fun h => hc (h ▸ hcur))
              cases best with
              | none =>
                  have : b = (x, [(c.2, c.1.rank)]) := by simpa [tieStep, hcur] using hb.symm
                  rw [this]
                  exact hkx
              | some m =>
                  have hm := hbest m rfl
                  simp only [tieStep, hcur] at hb
                  split_ifs at hb
                  · rw [← Option.some.inj hb]
                    exact hkx
                  · rw [← Option.some.inj hb]
                    exact hm
                  · rw [← Option.some.inj hb]
                    exact hm
        rw [ih _ hstep hcs hrest, List.filter_cons_of_neg (by simpa using hc)]

section Walk

variable {ls : List (List κ)} (hsorted : ∀ l ∈ ls, l.Pairwise (· < ·))

include hsorted

/-- Under the cursors that have taken what lies below `k`, a list's key is `k` exactly where it
holds it. -/
lemma head?_filter_not_lt {l : List κ} (hl : l ∈ ls) (k : κ) :
    (l.filter (fun x => !decide (x < k))).head? = some k ↔ k ∈ l := by
  constructor
  · intro h
    exact List.mem_of_mem_filter (List.mem_of_mem_head? h)
  · intro h
    cases hf : l.filter (fun x => !decide (x < k)) with
    | nil =>
        have hk : k ∈ l.filter (fun x => !decide (x < k)) :=
          List.mem_filter.mpr ⟨h, by simp⟩
        rw [hf] at hk
        exact absurd hk (by simp)
    | cons a rest =>
        have ha : a ∈ l.filter (fun x => !decide (x < k)) := by rw [hf]; exact List.mem_cons_self ..
        have hka : k ≤ a := by simpa using (List.mem_filter.mp ha).2
        have hk : k ∈ a :: rest := by rw [← hf]; exact List.mem_filter.mpr ⟨h, by simp⟩
        have hpair : (a :: rest).Pairwise (· < ·) := by
          rw [← hf]
          exact (hsorted l hl).filter _
        rcases List.mem_cons.mp hk with rfl | hk
        · rfl
        · exact absurd ((List.pairwise_cons.mp hpair).1 k hk) (not_lt_of_ge hka)

/-- A key stands at its rank in a list that holds it. -/
lemma getElem?_rankIn {l : List κ} (hl : l ∈ ls) {k : κ} (hk : k ∈ l) :
    l[rankIn l k]? = some k := by
  have hdown : ∀ x y : κ, x < y → decide (y < k) = true → decide (x < k) = true := by
    intro x y hxy hy
    simp only [decide_eq_true_eq] at hy ⊢
    exact hxy.trans hy
  rw [rankIn, getElem?_length_filter (hsorted l hl) hdown]
  exact (head?_filter_not_lt hsorted hl k).mpr hk

/-- The step of a walk that has taken what lies below `k`, a key of some list. -/
lemma leastTied_cursorsAt {k : κ} (hk : ∃ l ∈ ls, k ∈ l) :
    leastTied (cursorsAt ls (fun x => decide (x < k))) = some (k, tiedOf ls k) := by
  set cs := cursorsAt ls (fun x => decide (x < k)) with hcs
  have hzip : cs.zipIdx = ls.zipIdx.map (fun l =>
      ((⟨(l.1.filter (fun x => decide (x < k))).length,
        (l.1.filter (fun x => !decide (x < k))).head?⟩ : Cursor κ), l.2)) := by
    rw [hcs, cursorsAt, List.zipIdx_map]
    rfl
  have hle : ∀ c ∈ cs.zipIdx, ∀ x, c.1.cur = some x → k ≤ x := by
    intro c hc x hx
    rw [hzip, List.mem_map] at hc
    obtain ⟨l, -, rfl⟩ := hc
    have := List.mem_filter.mp (List.mem_of_mem_head? hx)
    simpa using this.2
  have hmem : ∃ c ∈ cs.zipIdx, c.1.cur = some k := by
    obtain ⟨l, hl, hkl⟩ := hk
    obtain ⟨i, hi, rfl⟩ := List.mem_iff_getElem.mp hl
    rw [hzip]
    exact ⟨_, List.mem_map.mpr ⟨(ls[i], i), by simp [List.mem_zipIdx_iff_getElem?], rfl⟩,
      (head?_filter_not_lt hsorted hl k).mpr hkl⟩
  rw [leastTied, foldl_tieStep cs.zipIdx none (by simp) hle hmem, hzip, List.filter_map,
    List.map_map, tiedOf]
  congr 2
  refine congrArg₂ _ rfl ?_
  refine List.filter_congr (fun l hl => ?_)
  have hl' : l.1 ∈ ls := by
    exact List.mem_of_getElem? (List.mem_zipIdx_iff_getElem?.mp hl)
  simp only [Function.comp, decide_eq_decide]
  exact head?_filter_not_lt hsorted hl' k

omit hsorted in
lemma mem_tiedOf {k : κ} {i : ℕ} (hi : i < ls.length) :
    i ∈ (tiedOf ls k).map Prod.fst ↔ k ∈ ls[i] := by
  simp only [tiedOf, List.map_map, List.mem_map, List.mem_filter, Function.comp]
  constructor
  · rintro ⟨⟨l, j⟩, ⟨hl, hk⟩, rfl⟩
    have := List.mem_zipIdx_iff_getElem?.mp hl
    rw [List.getElem?_eq_getElem hi] at this
    rw [Option.some.inj this]
    simpa using hk
  · intro hk
    exact ⟨(ls[i], i), ⟨by simp [List.mem_zipIdx_iff_getElem?], by simpa using hk⟩, rfl⟩

omit hsorted in
/-- Over the lists that hold `k`, a product is one over all lists whose other factors are one. -/
lemma prod_tiedOf {α M : Type} [Monoid M] (xs : List α) (f : α → List κ) {k : κ}
    (g : ℕ × ℕ → M) (d : α × ℕ → M)
    (hin : ∀ x ∈ xs.zipIdx, k ∈ f x.1 → d x = g (x.2, rankIn (f x.1) k))
    (hout : ∀ x ∈ xs.zipIdx, ¬ k ∈ f x.1 → d x = 1) :
    ((tiedOf (xs.map f) k).map g).prod = (xs.zipIdx.map d).prod := by
  have hzip : (xs.map f).zipIdx = xs.zipIdx.map (fun x => (f x.1, x.2)) := by
    rw [List.zipIdx_map]
    rfl
  rw [tiedOf, hzip, List.filter_map, List.map_map, List.map_map]
  generalize xs.zipIdx = ys at hin hout
  induction ys with
  | nil => rfl
  | cons y ys ih =>
      have ih' := ih (fun x hx => hin x (List.mem_cons_of_mem _ hx))
        (fun x hx => hout x (List.mem_cons_of_mem _ hx))
      rw [List.map_cons, List.prod_cons, ← ih']
      by_cases hk : k ∈ f y.1
      · rw [List.filter_cons_of_pos (by simpa using hk), List.map_cons, List.prod_cons,
          hin y (List.mem_cons_self ..) hk]
        rfl
      · rw [List.filter_cons_of_neg (by simpa using hk), hout y (List.mem_cons_self ..) hk, one_mul]

/-- The keys up to `k` are those below it, and it. -/
lemma length_filter_le {l : List κ} (hl : l ∈ ls) (k : κ) :
    (l.filter (fun x => decide (x ≤ k))).length
      = (l.filter (fun x => decide (x < k))).length + if k ∈ l then 1 else 0 := by
  have hpair := hsorted l hl
  have hsplit := filter_append_filter_not (p := fun x => decide (x < k))
    (hpair.filter (fun x => decide (x ≤ k))) (fun x y hxy hy => by
      simp only [decide_eq_true_eq] at hy ⊢
      exact hxy.trans hy)
  have hlt : (l.filter (fun x => decide (x ≤ k))).filter (fun x => decide (x < k))
      = l.filter (fun x => decide (x < k)) := by
    rw [List.filter_filter]
    refine List.filter_congr (fun x _ => ?_)
    by_cases h : x < k
    · simp [h, h.le]
    · simp [h]
  have heq : (l.filter (fun x => decide (x ≤ k))).filter (fun x => !decide (x < k))
      = l.filter (fun x => decide (x = k)) := by
    rw [List.filter_filter]
    refine List.filter_congr (fun x _ => ?_)
    rcases lt_trichotomy x k with h | rfl | h
    · simp [h, h.ne]
    · simp
    · simp [h.not_ge, h.ne']
  have hone : (l.filter (fun x => decide (x = k))).length = if k ∈ l then 1 else 0 := by
    have hnodup : l.Nodup := hpair.imp (fun h => h.ne)
    rw [← List.countP_eq_length_filter]
    have : l.countP (fun x => decide (x = k)) = l.count k := by
      rw [List.count]
      refine List.countP_congr (fun x _ => ?_)
      simp
    rw [this, List.Nodup.count hnodup]
  have hlen := congrArg List.length hsplit
  rw [List.length_append, hlt, heq, hone] at hlen
  exact hlen.symm

variable {key : ℕ → ℕ → Option κ}
  (hkey : ∀ i (hi : i < ls.length) r, key i r = ls[i][r]?)

include hkey

/-- Cursors that read their ranks stand at the first key not taken. -/
lemma key_cursorsAt {p : κ → Bool} (hp : ∀ x y, x < y → p y = true → p x = true) {i : ℕ}
    (hi : i < ls.length) :
    key i (ls[i].filter p).length = (ls[i].filter (fun x => !p x)).head? := by
  rw [hkey i hi]
  exact getElem?_length_filter (hsorted _ (List.getElem_mem hi)) hp

lemma refresh_start (cached : Bool) :
    refresh key cached ((List.range ls.length).map (fun i => ⟨0, key i 0⟩))
      = cursorsAt ls (fun _ => false) := by
  have hstart : (List.range ls.length).map (fun i => (⟨0, key i 0⟩ : Cursor κ))
      = cursorsAt ls (fun _ => false) := by
    refine List.ext_getElem (by simp [cursorsAt]) (fun i h1 h2 => ?_)
    have hi : i < ls.length := by simpa using h1
    have := key_cursorsAt hsorted hkey (p := fun _ => false) (by simp) hi
    simp only [List.filter_false, List.length_nil] at this
    simp [cursorsAt, this]
  rw [hstart, refresh]
  split_ifs
  · rfl
  · refine List.ext_getElem (by simp [cursorsAt]) (fun i h1 h2 => ?_)
    have hi : i < ls.length := by simpa [cursorsAt] using h2
    have := key_cursorsAt hsorted hkey (p := fun _ => false) (by simp) hi
    simp only [List.filter_false, List.length_nil] at this
    simp [cursorsAt, this]

/-- A step moves the cursors from what lies below `k` to what lies up to it. -/
lemma refresh_advance (cached : Bool) (k : κ) :
    refresh key cached (advance key cached (tiedOf ls k)
        (cursorsAt ls (fun x => decide (x < k))))
      = cursorsAt ls (fun x => decide (x ≤ k)) := by
  have hdown : ∀ x y : κ, x < y → decide (y ≤ k) = true → decide (x ≤ k) = true := by
    intro x y hxy hy
    simp only [decide_eq_true_eq] at hy ⊢
    exact hxy.le.trans hy
  have hrank : ∀ i (hi : i < ls.length), (ls[i].filter (fun x => decide (x ≤ k))).length
      = (ls[i].filter (fun x => decide (x < k))).length +
        if i ∈ (tiedOf ls k).map Prod.fst then 1 else 0 := by
    intro i hi
    rw [length_filter_le hsorted (List.getElem_mem hi)]
    simp only [mem_tiedOf hi]
  rw [refresh]
  cases cached with
  | true =>
      simp only [if_true]
      refine List.ext_getElem (by simp [cursorsAt, advance]) (fun i h1 h2 => ?_)
      have hi : i < ls.length := by simpa [cursorsAt] using h2
      have hk := key_cursorsAt hsorted hkey hdown hi
      have hr := hrank i hi
      simp only [advance, cursorsAt, List.getElem_mapIdx, List.getElem_map, if_true]
      by_cases hmem : i ∈ (tiedOf ls k).map Prod.fst
      · rw [if_pos hmem] at hr ⊢
        rw [← hr, hk]
      · rw [if_neg hmem, Nat.add_zero] at hr
        rw [if_neg hmem, ← hr]
        have hnot : ¬ k ∈ ls[i] := fun h => hmem ((mem_tiedOf hi).mpr h)
        refine congrArg (Cursor.mk _) (congrArg List.head? (List.filter_congr (fun x hx => ?_)))
        have hne : x ≠ k := fun h => hnot (h ▸ hx)
        rw [Bool.not_inj_iff, decide_eq_decide]
        exact ⟨fun h => h.le, fun h => lt_of_le_of_ne h hne⟩
  | false =>
      simp only [Bool.false_eq_true, if_false]
      refine List.ext_getElem (by simp [cursorsAt, advance]) (fun i h1 h2 => ?_)
      have hi : i < ls.length := by simpa [cursorsAt] using h2
      have hk := key_cursorsAt hsorted hkey hdown hi
      have hr := hrank i hi
      simp only [advance, cursorsAt, List.getElem_mapIdx, List.getElem_map, Bool.false_eq_true,
        if_false]
      by_cases hmem : i ∈ (tiedOf ls k).map Prod.fst
      · rw [if_pos hmem] at hr ⊢
        rw [← hr, hk]
      · rw [if_neg hmem, Nat.add_zero] at hr
        rw [if_neg hmem, ← hr, hk]

/-- **The walk from any point.**  `ks` are the distinct keys not taken yet, in order, and every key
taken lies below them. -/
lemma kmergeLoop_eq (cached : Bool) (f : σ → κ → List (ℕ × ℕ) → Except ε σ) (ks : List κ)
    (hks : ks.Pairwise (· < ·)) (p : κ → Bool)
    (hrest : ∀ x, (∃ l ∈ ls, x ∈ l) → p x = false → x ∈ ks)
    (htaken : ∀ x, p x = true → ∀ k ∈ ks, x < k) (hin : ∀ k ∈ ks, ∃ l ∈ ls, k ∈ l)
    {fuel : ℕ} (hfuel : ks.length ≤ fuel) {cs : List (Cursor κ)}
    (hcs : refresh key cached cs = cursorsAt ls p) (s : σ) :
    kmergeLoop key cached f fuel cs s
      = ks.foldlM (fun s k => f s k (tiedOf ls k)) s := by
  induction ks generalizing p fuel cs s with
  | nil =>
      cases fuel with
      | zero => rfl
      | succ fuel =>
          have hnone : leastTied (refresh key cached cs) = none := by
            rw [hcs]
            refine foldl_tieStep_none _ (fun c hc => ?_)
            have hc' := List.mem_of_getElem? (List.mem_zipIdx_iff_getElem?.mp hc)
            rw [cursorsAt, List.mem_map] at hc'
            obtain ⟨l, hl, hcl⟩ := hc'
            have hempty : l.filter (fun x => !p x) = [] := by
              rw [List.filter_eq_nil_iff]
              intro x hx hpx
              exact absurd (hrest x ⟨l, hl, hx⟩ (by simpa using hpx)) (by simp)
            rw [← hcl, hempty]
            rfl
          simp only [kmergeLoop, hnone]
          rfl
  | cons k ks ih =>
      obtain ⟨hk, hks⟩ := List.pairwise_cons.mp hks
      cases fuel with
      | zero => exact absurd hfuel (by simp)
      | succ fuel =>
          -- among the keys there are, what is taken is what lies below `k`
          have hpk : cursorsAt ls p = cursorsAt ls (fun x => decide (x < k)) := by
            refine cursorsAt_congr (fun l hl x hx => ?_)
            cases hpx : p x with
            | true => simpa using htaken x hpx k (List.mem_cons_self ..)
            | false =>
                have hle : k ≤ x := by
                  rcases List.mem_cons.mp (hrest x ⟨l, hl, hx⟩ hpx) with rfl | hmem
                  · exact le_refl _
                  · exact (hk x hmem).le
                simpa using hle
          have hleast : leastTied (refresh key cached cs) = some (k, tiedOf ls k) := by
            rw [hcs, hpk]
            exact leastTied_cursorsAt hsorted (hin k (List.mem_cons_self ..))
          have hnext : refresh key cached (advance key cached (tiedOf ls k)
              (refresh key cached cs)) = cursorsAt ls (fun x => decide (x ≤ k)) := by
            rw [hcs, hpk]
            exact refresh_advance hsorted hkey cached k
          rw [kmergeLoop, List.foldlM_cons]
          simp only [hleast]
          congr 1
          funext s'
          refine ih hks (fun x => decide (x ≤ k)) ?_ ?_
            (fun x hx => hin x (List.mem_cons_of_mem _ hx)) (by simpa using hfuel) hnext s'
          · intro x hx hxk
            have hlt : k < x := by simpa using hxk
            have hpx : p x = false := by
              by_contra hpx
              exact absurd (htaken x (by simpa using hpx) k (List.mem_cons_self ..))
                (not_lt_of_gt hlt)
            rcases List.mem_cons.mp (hrest x hx hpx) with rfl | hmem
            · exact absurd hlt (lt_irrefl _)
            · exact hmem
          · intro x hx y hy
            exact lt_of_le_of_lt (by simpa using hx) (hk y hy)

/-- **The walk.**  It visits the distinct keys `ks` of the lists in increasing order, each tied in
the lists that hold it. -/
theorem kmerge_eq (cached : Bool) (f : σ → κ → List (ℕ × ℕ) → Except ε σ) {ks : List κ}
    (hks : ks.Pairwise (· < ·)) (hmem : ∀ x, x ∈ ks ↔ ∃ l ∈ ls, x ∈ l) {fuel : ℕ}
    (hfuel : ks.length ≤ fuel) (s : σ) :
    kmerge key cached f ls.length fuel s = ks.foldlM (fun s k => f s k (tiedOf ls k)) s :=
  kmergeLoop_eq hsorted hkey cached f ks hks (fun _ => false) (fun x hx _ => (hmem x).mpr hx)
    (fun _ h => absurd h (by simp)) (fun k hk => (hmem k).mp hk) hfuel
    (refresh_start hsorted hkey cached) s

end Walk

end KMerge

end StorageLib

import Supdb.Lib.Search

/-!
# Ranges that tile an order

A **range** is half-open, and unbounded above where it has no upper end.  A list of ranges *spans*
another range when it cuts it at shared ends, in order.

* `InRange`, `Wide`, `RangesApart`, `Within` – a key in a range, a range that holds a key, two
  ranges that share none, one inside another.
* `Spans` – the cut of a range; `Spans.append` joins two.
* `spans_of_exact` – in order of their lower ends, ranges that hold every key once are a cut of the
  whole order.
* `partitionPoint_spans` – the halving loop over upper ends finds the range of a key.
-/

namespace StorageLib

variable {κ : Type} [LinearOrder κ]

/-! ## One range -/

/-- Whether a key lies in a range. -/
def InRange (f : κ × Option κ) (k : κ) : Prop := f.1 ≤ k ∧ ∀ h ∈ f.2, k < h

/-- A range that holds a key. -/
def Wide (f : κ × Option κ) : Prop := ∀ h ∈ f.2, f.1 < h

/-- Two ranges that share no key. -/
def RangesApart (f g : κ × Option κ) : Prop := ∀ k, InRange f k → ¬ InRange g k

lemma Wide.inRange {f : κ × Option κ} (h : Wide f) : InRange f f.1 := ⟨le_refl _, h⟩

lemma InRange.wide {f : κ × Option κ} {k : κ} (h : InRange f k) : Wide f :=
  fun _ hh => h.1.trans_lt (h.2 _ hh)

lemma RangesApart.symm {f g : κ × Option κ} (h : RangesApart f g) : RangesApart g f :=
  fun k hg hf => h k hf hg

lemma apart_of_le {f g : κ × Option κ} {h : κ} (hf : h ∈ f.2) (hle : h ≤ g.1) : RangesApart f g :=
  fun _ hk hg => absurd (hk.2 h hf) (not_lt_of_ge (hle.trans hg.1))

/-- One range inside another. -/
def Within (f g : κ × Option κ) : Prop := ∀ k, InRange f k → InRange g k

lemma Within.refl (f : κ × Option κ) : Within f f := fun _ h => h

lemma Within.trans {f g h : κ × Option κ} (hfg : Within f g) (hgh : Within g h) : Within f h :=
  fun k hk => hgh k (hfg k hk)

lemma RangesApart.of_within {f g h : κ × Option κ} (hfg : RangesApart f g) (hin : Within h g) :
    RangesApart f h :=
  fun k hk hh => hfg k hk (hin k hh)

lemma Wide.not_apart_self {f : κ × Option κ} (h : Wide f) : ¬ RangesApart f f :=
  fun ha => ha f.1 h.inRange h.inRange

/-- A range inside another begins no earlier. -/
lemma Within.le {f g : κ × Option κ} (hfg : Within f g) (hf : Wide f) : g.1 ≤ f.1 :=
  (hfg _ hf.inRange).1

/-- Two ranges each inside the other are one. -/
lemma Within.antisymm {f g : κ × Option κ} (hfg : Within f g) (hgf : Within g f) (hf : Wide f) :
    f = g := by
  have hg : Wide g := (hfg _ hf.inRange).wide
  have hlo : f.1 = g.1 := le_antisymm (hgf.le hg) (hfg.le hf)
  have hend : ∀ a b : κ × Option κ, a.1 = b.1 → Wide a → Within b a →
    ∀ x ∈ a.2, ∃ y ∈ b.2, y ≤ x := by
    intro a b hab ha hba x hx
    by_contra hnone
    have hin : InRange b x := by
      refine ⟨hab ▸ (ha x hx).le, fun y hy => ?_⟩
      by_contra hle
      exact hnone ⟨y, hy, not_lt.mp hle⟩
    exact absurd ((hba x hin).2 x hx) (lt_irrefl x)
  obtain ⟨lo, hi⟩ := f
  obtain ⟨lo', hi'⟩ := g
  dsimp only at hlo
  subst hlo
  cases hi with
  | none =>
      cases hi' with
      | none => rfl
      | some y =>
          obtain ⟨x, hx, -⟩ := hend (lo, some y) (lo, none) rfl hg hfg y rfl
          exact absurd hx.symm (Option.some_ne_none x)
  | some x =>
      obtain ⟨y, hy, hyx⟩ := hend (lo, some x) (lo, hi') rfl hf hgf x rfl
      have hy : hi' = some y := hy
      subst hy
      obtain ⟨x', hx', hxy⟩ := hend (lo, some y) (lo, some x) rfl hg hfg y rfl
      have hx' : some x = some x' := hx'
      rw [Option.some.inj hx', le_antisymm hxy (Option.some.inj hx' ▸ hyx)]

/-! ## Cuts -/

/-- Ranges that cut the range from `lo` to `hi` at shared ends, in order. -/
def Spans : κ → Option κ → List (κ × Option κ) → Prop
  | _, _, [] => False
  | lo, hi, [f] => f = (lo, hi)
  | lo, hi, f :: g :: fs => ∃ m, f = (lo, some m) ∧ Spans m hi (g :: fs)

section Spans

variable {lo m : κ} {hi : Option κ} {fs gs : List (κ × Option κ)} {k : κ}

omit [LinearOrder κ] in
lemma Spans.ne_nil (h : Spans lo hi fs) : fs ≠ [] := by
  rintro rfl
  exact h

omit [LinearOrder κ] in
/-- A range put in front of a cut. -/
lemma Spans.cons (h : Spans m hi fs) : Spans lo hi ((lo, some m) :: fs) := by
  cases fs with
  | nil => exact absurd rfl h.ne_nil
  | cons g fs => exact ⟨m, rfl, h⟩

omit [LinearOrder κ] in
/-- Two cuts that meet are one. -/
lemma Spans.append (h : Spans lo (some m) fs) (h' : Spans m hi gs) : Spans lo hi (fs ++ gs) := by
  induction fs generalizing lo with
  | nil => exact absurd rfl h.ne_nil
  | cons f fs ih =>
      cases fs with
      | nil =>
          rw [show f = (lo, some m) from h]
          exact h'.cons
      | cons g fs =>
          obtain ⟨m', rfl, hrest⟩ := h
          exact (ih hrest).cons

omit [LinearOrder κ] in
/-- The last range of a cut, closed at another end. -/
lemma Spans.close {hi' : Option κ} {f : κ × Option κ} (h : Spans lo hi' (fs ++ [f])) :
    Spans lo hi (fs ++ [(f.1, hi)]) := by
  induction fs generalizing lo with
  | nil =>
      rw [show f = (lo, hi') from h]
      rfl
  | cons g fs ih =>
      have hcons : ∀ x, ∃ a as, fs ++ [x] = a :: as := fun x => List.exists_cons_of_ne_nil (by simp)
      obtain ⟨a, as, ha⟩ := hcons f
      rw [List.cons_append, ha] at h
      obtain ⟨m, rfl, hrest⟩ := h
      rw [← ha] at hrest
      exact (ih hrest).cons

lemma Spans.lt (h : Spans lo hi fs) (hw : ∀ f ∈ fs, Wide f) : ∀ x ∈ hi, lo < x := by
  induction fs generalizing lo with
  | nil => exact absurd rfl h.ne_nil
  | cons f fs ih =>
      intro x hx
      cases fs with
      | nil =>
          rw [show f = (lo, hi) from h] at hw
          exact hw _ (List.mem_singleton_self _) x hx
      | cons g fs =>
          obtain ⟨m, rfl, hrest⟩ := h
          have hlt : lo < m := hw _ List.mem_cons_self m rfl
          exact hlt.trans (ih hrest (fun f hf => hw f (List.mem_cons_of_mem _ hf)) x hx)

/-- A cut holds the keys of the range it cuts. -/
lemma Spans.mem_iff (h : Spans lo hi fs) (hw : ∀ f ∈ fs, Wide f) : (∃ f ∈ fs, InRange f k) ↔
    InRange (lo, hi) k := by
  induction fs generalizing lo with
  | nil => exact absurd rfl h.ne_nil
  | cons f fs ih =>
      cases fs with
      | nil =>
          rw [show f = (lo, hi) from h]
          simp
      | cons g fs =>
          obtain ⟨m, rfl, hrest⟩ := h
          have hw' : ∀ f ∈ g :: fs, Wide f := fun f hf => hw f (List.mem_cons_of_mem _ hf)
          have hlt : lo < m := hw _ List.mem_cons_self m rfl
          rw [List.exists_mem_cons_iff, ih hrest hw']
          constructor
          · rintro (⟨h1, h2⟩ | ⟨h1, h2⟩)
            · exact ⟨h1, fun x hx => (h2 m rfl).trans (hrest.lt hw' x hx)⟩
            · exact ⟨hlt.le.trans h1, h2⟩
          · rintro ⟨h1, h2⟩
            by_cases hkm : k < m
            · exact Or.inl ⟨h1, fun x hx => by rwa [← Option.some.inj hx]⟩
            · exact Or.inr ⟨not_lt.mp hkm, h2⟩

/-- The ranges of a cut share no key, and none reaches below it. -/
lemma Spans.apart (h : Spans lo hi fs) (hw : ∀ f ∈ fs, Wide f) : fs.Pairwise RangesApart ∧
    ∀ f ∈ fs, lo ≤ f.1 := by
  induction fs generalizing lo with
  | nil => exact absurd rfl h.ne_nil
  | cons f fs ih =>
      cases fs with
      | nil =>
          rw [show f = (lo, hi) from h]
          exact ⟨List.pairwise_singleton _ _, by simp⟩
      | cons g fs =>
          obtain ⟨m, rfl, hrest⟩ := h
          obtain ⟨hapart, hle⟩ := ih hrest (fun f hf => hw f (List.mem_cons_of_mem _ hf))
          have hlt : lo < m := hw _ List.mem_cons_self m rfl
          refine ⟨List.pairwise_cons.mpr ⟨fun x hx => apart_of_le rfl (hle x hx), hapart⟩, fun x hx => ?_⟩
          rcases List.mem_cons.mp hx with rfl | hx
          · exact le_refl _
          · exact hlt.le.trans (hle x hx)

/-- **Ranges each cut on its own**, where they share no key: the cuts share none, each lies inside
its range, and together they hold what the ranges do. -/
lemma spans_groups {groups : List (List (κ × Option κ))}
    (h : List.Forall₂ (fun f g => Spans f.1 f.2 g) fs groups) (ha : fs.Pairwise RangesApart)
    (hw : ∀ g ∈ groups.flatten, Wide g) :
    groups.flatten.Pairwise RangesApart ∧ (∀ g ∈ groups.flatten, ∃ f ∈ fs, Within g f) ∧
      ∀ f ∈ fs, ∀ k, InRange f k → ∃ g ∈ groups.flatten, InRange g k := by
  induction h with
  | nil => exact ⟨List.Pairwise.nil, fun g hg => absurd hg List.not_mem_nil, fun f hf => absurd hf List.not_mem_nil⟩
  | @cons f as fs groups hspans _ ih =>
      obtain ⟨hapart, hrest⟩ := List.pairwise_cons.mp ha
      have hw1 : ∀ g ∈ as, Wide g := fun g hg => hw g (by rw [List.flatten_cons]; exact List.mem_append_left _ hg)
      obtain ⟨hpair, hin, hcover⟩ :=
        ih hrest (fun g hg => hw g (by rw [List.flatten_cons]; exact List.mem_append_right _ hg))
      have hmine : ∀ g ∈ as, Within g f := fun g hg k hk => (hspans.mem_iff hw1).mp ⟨g, hg, hk⟩
      rw [List.flatten_cons]
      refine ⟨List.pairwise_append.mpr ⟨(hspans.apart hw1).1, hpair, fun g hg g' hg' k hk hk' =>
        ?_⟩, fun g hg => ?_, fun f' hf' k hk => ?_⟩
      · obtain ⟨f', hf', hgf'⟩ := hin g' hg'
        exact hapart f' hf' k (hmine g hg k hk) (hgf' k hk')
      · rcases List.mem_append.mp hg with hg | hg
        · exact ⟨f, List.mem_cons_self, hmine g hg⟩
        · obtain ⟨f', hf', hgf'⟩ := hin g hg
          exact ⟨f', List.mem_cons_of_mem _ hf', hgf'⟩
      · rcases List.mem_cons.mp hf' with rfl | hf'
        · obtain ⟨g, hg, hgk⟩ := (hspans.mem_iff hw1).mpr hk
          exact ⟨g, List.mem_append_left _ hg, hgk⟩
        · obtain ⟨g, hg, hgk⟩ := hcover f' hf' k hk
          exact ⟨g, List.mem_append_right _ hg, hgk⟩

end Spans

/-! ## Cuts by their lower ends -/

section Cuts

variable {fs : List (κ × Option κ)}

/-- **In order of their lower ends**, ranges that hold every key from `lo` on once are a cut. -/
lemma spans_of_exact {lo : κ} (hsorted : fs.Pairwise (fun f g => f.1 ≤ g.1)) (hw : ∀ f ∈ fs, Wide f)
    (ha : fs.Pairwise RangesApart) (hlo : ∀ f ∈ fs, lo ≤ f.1)
    (hcover : ∀ k, lo ≤ k → ∃ f ∈ fs, InRange f k) : Spans lo none fs := by
  induction fs generalizing lo with
  | nil =>
      obtain ⟨f, hf, -⟩ := hcover lo (le_refl _)
      exact absurd hf List.not_mem_nil
  | cons f fs ih =>
      obtain ⟨hle, hrest⟩ := List.pairwise_cons.mp hsorted
      obtain ⟨hapart, hrestApart⟩ := List.pairwise_cons.mp ha
      have hfirst : f.1 = lo := by
        obtain ⟨g, hg, hgk, -⟩ := hcover lo (le_refl _)
        rcases List.mem_cons.mp hg with rfl | hg
        · exact le_antisymm hgk (hlo _ List.mem_cons_self)
        · exact le_antisymm ((hle g hg).trans hgk) (hlo _ List.mem_cons_self)
      have hwf : Wide f := hw f List.mem_cons_self
      obtain ⟨a, hi⟩ := f
      dsimp only at hfirst hle
      subst hfirst
      cases hi with
      | none =>
          cases fs with
          | nil => rfl
          | cons g fs =>
              have hg : Wide g := hw g (by simp)
              exact absurd hg.inRange (hapart g List.mem_cons_self g.1
                ⟨hle g List.mem_cons_self, fun _ hh => absurd hh (by simp)⟩)
      | some m =>
          have hbehind : ∀ g ∈ fs, m ≤ g.1 := by
            intro g hg
            by_contra hlt
            exact hapart g hg g.1 ⟨hle g hg, fun x hx => by rw [← Option.some.inj hx]; exact not_le.mp hlt⟩
              (hw g (List.mem_cons_of_mem _ hg)).inRange
          have ham : a < m := hwf m rfl
          refine (ih hrest (fun g hg => hw g (List.mem_cons_of_mem _ hg)) hrestApart hbehind (fun k hk => ?_)).cons
          obtain ⟨g, hg, hgk⟩ := hcover k (ham.le.trans hk)
          rcases List.mem_cons.mp hg with rfl | hg
          · exact absurd (hgk.2 m rfl) (not_lt_of_ge hk)
          · exact ⟨g, hg, hgk⟩

end Cuts

/-! ## Routing -/

/-- Of two ranges of a cut the first ends at or before the other's start. -/
lemma Spans.before {lo : κ} {hi : Option κ} {fs : List (κ × Option κ)} (h : Spans lo hi fs)
    (hw : ∀ f ∈ fs, Wide f) :
    ∀ i j (hi : i < fs.length) (hj : j < fs.length), i < j → ∃ x ∈ fs[i].2, x ≤ fs[j].1 := by
  induction fs generalizing lo with
  | nil => exact fun i j hi => absurd hi (by simp)
  | cons a as ih =>
      cases as with
      | nil =>
          intro i j hi hj hij
          simp only [List.length_cons, List.length_nil] at hi hj
          omega
      | cons b as =>
          obtain ⟨m, rfl, hrest⟩ := h
          have hw' : ∀ f ∈ b :: as, Wide f := fun f hf => hw f (List.mem_cons_of_mem _ hf)
          intro i j hi hj hij
          cases j with
          | zero => omega
          | succ j =>
              cases i with
              | zero => exact ⟨m, rfl, (hrest.apart hw').2 _ (List.getElem_mem _)⟩
              | succ i =>
                  simp only [List.getElem_cons_succ]
                  exact ih hrest hw' i j (by simpa using hi) (by simpa using hj) (by omega)

/-- **The range of a key**, and which ranges of a cut end at or before the key. -/
lemma Spans.exists_place {lo k : κ} {hi : Option κ} {fs : List (κ × Option κ)} (h : Spans lo hi fs)
    (hw : ∀ f ∈ fs, Wide f) (hk : InRange (lo, hi) k) :
    ∃ t f, fs[t]? = some f ∧ InRange f k ∧ ∀ i (hi : i < fs.length), (∃ x ∈ fs[i].2, x ≤ k) ↔
    i < t := by
  obtain ⟨f, hf, hfk⟩ := (h.mem_iff hw).mpr hk
  obtain ⟨t, ht, rfl⟩ := List.mem_iff_getElem.mp hf
  refine ⟨t, fs[t], List.getElem?_eq_getElem ht, hfk, fun i hi => ?_⟩
  constructor
  · rintro ⟨x, hx, hxk⟩
    by_contra hti
    rcases Nat.lt_or_eq_of_le (not_lt.mp hti) with hlt | rfl
    · obtain ⟨y, hy, hyi⟩ := h.before hw t i ht hi hlt
      have hki : k < fs[i].1 := (hfk.2 y hy).trans_le hyi
      have hix : fs[i].1 < x := hw _ (List.getElem_mem hi) x hx
      exact absurd hxk (not_le.mpr (hki.trans hix))
    · exact absurd (hfk.2 x hx) (not_lt_of_ge hxk)
  · intro hit
    obtain ⟨x, hx, hxt⟩ := h.before hw i t hi ht hit
    exact ⟨x, hx, hxt.trans hfk.1⟩

/-- **The halving loop over the upper ends of a cut** stops at the range that holds the key. -/
lemma partitionPoint_spans {lo k : κ} {hi : Option κ} {fs : List (κ × Option κ)}
    (h : Spans lo hi fs) (hw : ∀ f ∈ fs, Wide f) (hk : InRange (lo, hi) k) :
    ∃ f,
      fs[partitionPoint (fun i => (fs[i]?.bind Prod.snd).any (fun x => decide (x ≤ k))) 0
      fs.length]? = some f ∧ InRange f k := by
  obtain ⟨t, f, hf, hfk, hplace⟩ := h.exists_place hw hk
  have hpoint : partitionPoint (fun i => (fs[i]?.bind Prod.snd).any (fun x => decide (x ≤ k))) 0
    fs.length = t := by
    refine partitionPoint_eq (Nat.zero_le _)
      (List.getElem?_eq_some_iff.mp hf).1.le (fun i _ hi => ?_)
    rw [List.getElem?_eq_getElem hi, Option.bind_some, Option.any_eq_true]
    simp only [decide_eq_true_eq]
    exact hplace i hi
  exact ⟨f, by rw [hpoint, hf], hfk⟩

end StorageLib

import Supdb.LevelsScanWalk

/-!
# The merged scan

The merged scan has one cursor for the partitions.  It goes from each to the next where nothing is
left in it; where every piece is aligned the pieces' cursors go with it, and it waits for them too,
since a piece may hold keys above its partition's last.

* `firstReaching_spec` – the gallop and the halving loop find the partition that holds the scan's
  start.
* `MergeAt` – a point of the scan: the partitions left behind have nothing more to give, those ahead
  have given nothing, and a piece without a cursor is one or the other.
* `MergeAt.nextPart` – moved on as far as it goes, the scan stands on some key below all the
  partitions ahead, or none is ahead.
* **`scanMerged_eq`** – it hands out the keys held from the start on, each with what a read gives.
-/

namespace Supdb

open StorageLib

section Parts

variable {h : Levels} {start : Bytes}

/-! ## The first partition -/

/-- **The gallop** has the place a predicate changes at in its span. -/
lemma reachSpan_spec {t : ℕ} (hp : ∀ i < h.parts.length, (h.endsBelow start i = true ↔ i < t))
    (ht : t ≤ h.parts.length) (j lo : ℕ) (hlo : lo ≤ t) :
    (h.reachSpan start j lo).1 ≤ t ∧ t ≤ (h.reachSpan start j lo).2 ∧
    (h.reachSpan start j lo).2 ≤ h.parts.length := by
  induction j, lo using Levels.reachSpan.induct h start with
  | case1 j lo hin ih =>
      rw [Levels.reachSpan, if_pos hin]
      have hpos := Nat.two_pow_pos j
      have hlt := (hp (2 ^ j - 1) (by omega)).mp hin.2
      exact ih (by omega)
  | case2 j lo hout =>
      rw [Levels.reachSpan, if_neg hout]
      refine ⟨hlo, le_min ?_ ht, min_le_right _ _⟩
      by_contra hlt
      have hpos := Nat.two_pow_pos j
      exact hout ⟨by omega, (hp (2 ^ j - 1) (by omega)).mpr (by omega)⟩

/-- `first_reaching` finds the place a predicate changes at. -/
lemma firstReaching_eq {t : ℕ} (hp : ∀ i < h.parts.length, (h.endsBelow start i = true ↔ i < t))
    (ht : t ≤ h.parts.length) : h.firstReaching start = t := by
  obtain ⟨hlo, hhi, hlen⟩ := reachSpan_spec hp ht 0 0 (Nat.zero_le t)
  have hpoint : partitionPoint (fun i => h.endsBelow start ((h.reachSpan start 0 0).1 + i)) 0
      ((h.reachSpan start 0 0).2 - (h.reachSpan start 0 0).1) = t - (h.reachSpan start 0 0).1 := by
    refine partitionPoint_eq (Nat.zero_le _) (by omega) (fun i _ hi => ?_)
    rw [hp _ (by omega)]
    omega
  rw [Levels.firstReaching, hpoint]
  omega

/-- Of two partitions the first ends at or before the other's start. -/
lemma parts_before (hs : Settled h.live h.queue) (hnodup : h.live.Nodup)
    (hsorted : h.live.Pairwise (fun s t => s.rank ≤ t.rank)) :
    h.parts.Pairwise (fun p q => ∃ x ∈ p.fence.2, x ≤ q.fence.1) := by
  by_cases hnil : h.parts = []
  · rw [hnil]
    exact List.Pairwise.nil
  have hspans := spans_ranges hs hnodup hsorted
  have hwide : ∀ f ∈ h.ranges, Wide f := fun f hf => hs.wide_range (mem_ranges.mp hf)
  rw [Levels.ranges, if_neg hnil] at hspans hwide
  rw [List.pairwise_iff_getElem]
  intro i j hi hj hij
  have hbefore := hspans.before hwide i j (by simpa using hi) (by simpa using hj) hij
  rwa [List.getElem_map, List.getElem_map] at hbefore

/-- **Where every piece is aligned**, one that begins where a partition does has its fence. -/
lemma fence_of_aligned (hs : Settled h.live h.queue) (hal : h.l0Aligned = true) {s p : Seg}
    (hsl : s ∈ h.l0) (hp : p ∈ h.parts) (hlo : s.fence.1 = p.fence.1) : s.fence = p.fence := by
  have hfits := hs.fits_live
  rw [Levels.l0Aligned, Bool.and_eq_true, List.all_eq_true] at hal
  obtain ⟨q, hq, hqs⟩ := List.any_eq_true.mp (hal.2 s hsl)
  have hqs' : q.fence = s.fence := of_decide_eq_true hqs
  obtain ⟨hql, hqpart⟩ := mem_parts.mp hq
  obtain ⟨hpl, hppart⟩ := mem_parts.mp hp
  have hqp : q = p := by
    by_contra hne
    refine hs.apart q hql p hpl hqpart hppart hne p.fence.1 ?_ (hfits p hpl).wide.inRange
    rw [← hlo, ← hqs']
    exact (hfits q hql).wide.inRange
  rw [← hqs', hqp]

/-- **The first partition that may reach the start**: those before it end at or before the start,
and those behind it begin past it. -/
lemma firstReaching_spec (hs : Settled h.live h.queue) (hnodup : h.live.Nodup)
    (hsorted : h.live.Pairwise (fun s t => s.rank ≤ t.rank)) (start : Bytes) :
    (∀ p ∈ h.parts.take (h.firstReaching start), ∃ x ∈ p.fence.2, x ≤ start) ∧
      (∀ p ∈ (h.parts.drop (h.firstReaching start)).tail, start ≤ p.fence.1) ∧
      (h.parts ≠ [] → h.parts.drop (h.firstReaching start) ≠ []) := by
  by_cases hnil : h.parts = []
  · rw [hnil, List.take_nil, List.drop_nil]
    exact ⟨fun p hp => absurd hp List.not_mem_nil, fun p hp => absurd hp List.not_mem_nil,
      fun hne => absurd rfl hne⟩
  have hspans := spans_ranges hs hnodup hsorted
  have hwide : ∀ f ∈ h.ranges, Wide f := fun f hf => hs.wide_range (mem_ranges.mp hf)
  rw [Levels.ranges, if_neg hnil] at hspans hwide
  obtain ⟨t, f, hf, hstart, hplace⟩ := hspans.exists_place hwide (full_holds start)
  rw [List.getElem?_map] at hf
  obtain ⟨p, hp, rfl⟩ := Option.map_eq_some_iff.mp hf
  obtain ⟨ht, hpt⟩ := List.getElem?_eq_some_iff.mp hp
  have hbelow : ∀ i < h.parts.length, (h.endsBelow start i = true ↔ i < t) := by
    intro i hi
    rw [← hplace i (by simpa using hi), List.getElem_map, Levels.endsBelow,
      List.getElem?_eq_getElem hi, Option.bind_some, Option.any_eq_true]
    simp only [decide_eq_true_eq]
    rfl
  rw [firstReaching_eq hbelow ht.le]
  refine ⟨fun q hq => ?_, fun q hq => ?_, fun _ => ?_⟩
  · obtain ⟨i, hi, rfl⟩ := List.mem_take_iff_getElem.mp hq
    have hil : i < h.parts.length := by omega
    have hin := (hplace i (by simpa using hil)).mpr (by omega)
    rwa [List.getElem_map] at hin
  · have hpair := (parts_before hs hnodup hsorted).sublist (List.drop_sublist t h.parts)
    rw [List.drop_eq_getElem_cons ht, hpt] at hpair hq
    obtain ⟨x, hx, hle⟩ := (List.pairwise_cons.mp hpair).1 q hq
    exact (hstart.2 x hx).le.trans hle
  · rw [List.drop_eq_getElem_cons ht]
    exact List.cons_ne_nil _ _

end Parts

/-! ## A point of the scan -/

section At

variable {h : Levels} {start k : Bytes} {p q : Bytes → Bool} {rest : List (Seg × ℕ)}
    {pw : Option Cur} {l0 : List Cur}

/-- With everything of a segment taken, its cursor stands on no key. -/
lemma Cur.key_upto_none {s : Seg} (hall : ∀ x ∈ s.keys, p x = true) :
    (Cur.upto s p).key = none := by
  rw [Cur.key, Cur.upto, placeOf, List.filter_eq_self.mpr hall, List.getElem?_eq_none (le_refl _)]

/-- And otherwise on one not taken. -/
lemma Cur.key_upto {s : Seg} (hsorted : s.keys.Pairwise (· < ·))
    (hp : ∀ x y, x < y → p y = true → p x = true) :
    ((Cur.upto s p).key = none → ∀ x ∈ s.keys, p x = true) ∧
      ∀ x, (Cur.upto s p).key = some x → x ∈ s.keys ∧ p x = false := by
  have hkey : (Cur.upto s p).key = (s.keys.filter (fun x => !p x)).head? :=
    getElem?_placeOf hsorted hp
  constructor
  · intro hnone x hx
    rw [hkey, List.head?_eq_none_iff, List.filter_eq_nil_iff] at hnone
    simpa using hnone x hx
  · intro x hx
    rw [hkey] at hx
    simpa using List.mem_filter.mp (List.mem_of_mem_head? hx)

/-- **A point of the merged scan** with `p` taken: the partition walked, if any, and its place;
those before it have nothing left, and of those ahead nothing is taken.  A piece with no cursor has
nothing left either, or lies over one ahead. -/
structure MergeAt (h : Levels) (p : Bytes → Bool) (rest : List (Seg × ℕ)) (pw : Option Cur)
    (l0 : List Cur) : Prop where
  parts : ∃ done cur : List (Seg × ℕ), h.parts.zipIdx = done ++ (cur ++ rest) ∧
    (∀ d ∈ done, ∀ x ∈ d.1.keys, p x = true) ∧
    ((cur = [] ∧ rest = [] ∧ pw = none) ∨ ∃ c, cur = [c] ∧ pw = some (Cur.upto c.1 p))
  ahead : ∀ r ∈ rest, ∀ x, r.1.fence.1 ≤ x → p x = false
  pieces : ∃ f : Seg → Bool, l0 = (h.l0.filter f).map (fun s => Cur.upto s p) ∧
    (∀ s ∈ h.l0, f s = false → (∀ x ∈ s.keys, p x = true) ∨ h.l0Aligned = true ∧ ∃ r ∈ rest,
    r.1.fence = s.fence) ∧
    (h.l0Aligned = true → ∀ s ∈ h.l0, f s = true → ∀ r ∈ rest, ∃ x ∈ s.fence.2, x ≤ r.1.fence.1)

/-- **The scan stands** on a key not taken that is below every partition ahead, or none is ahead. -/
def Standing (h : Levels) (p : Bytes → Bool) (rest : List (Seg × ℕ)) (pw : Option Cur)
    (l0 : List Cur) : Prop :=
  rest = [] ∨ ∃ c x, (pw = some c ∨ h.l0Aligned = true ∧ c ∈ l0) ∧ c.key = some x ∧ h.Held x ∧
    p x = false ∧ ∀ r ∈ rest, x < r.1.fence.1

namespace MergeAt

/-- With the same of what is held taken. -/
lemma congr (w : MergeAt h p rest pw l0) (hpq : ∀ x, h.Held x → p x = q x)
    (hahead : ∀ r ∈ rest, ∀ x, r.1.fence.1 ≤ x → q x = false) : MergeAt h q rest pw l0 := by
  obtain ⟨done, cur, hparts, hdone, hcur⟩ := w.parts
  obtain ⟨f, hl0, hout, hin⟩ := w.pieces
  have hlive : ∀ d ∈ done ++ (cur ++ rest), ∀ x ∈ d.1.keys, p x = q x := by
    intro d hd x hx
    rw [← hparts] at hd
    have hmem : d.1 ∈ h.parts := List.mem_of_getElem? (List.mem_zipIdx_iff_getElem?.mp hd)
    exact hpq x (Or.inl ⟨d.1, (mem_parts.mp hmem).1, hx⟩)
  refine {
    parts := ⟨done, cur, hparts, fun d hd x hx => ?_, ?_⟩
    ahead := hahead
    pieces := ⟨f, ?_, fun s hs hno => ?_, hin⟩ }
  · rw [← hlive d (List.mem_append_left _ hd) x hx]
    exact hdone d hd x hx
  · rcases hcur with hnil | ⟨c, rfl, hpw⟩
    · exact Or.inl hnil
    · refine Or.inr ⟨c, rfl, ?_⟩
      rw [hpw, Cur.upto_congr (hlive c (List.mem_append_right _ (List.mem_append_left _ (List.mem_singleton_self _))))]
  · rw [hl0]
    refine List.map_congr_left (fun s hs => Cur.upto_congr (fun x hx => ?_))
    exact hpq x (Or.inl ⟨s, (mem_l0.mp (List.mem_of_mem_filter hs)).1, hx⟩)
  · rcases hout s hs hno with htaken | hover
    · exact Or.inl (fun x hx => by rw [← hpq x (Or.inl ⟨s, (mem_l0.mp hs).1, hx⟩)]; exact htaken x hx)
    · exact Or.inr hover

/-- **Moved on to the partition ahead**, with nothing left in the one walked nor, where they go with
it, in its pieces. -/
lemma moved (hs : Settled h.live h.queue) (hnodup : h.live.Nodup)
    (hsorted : h.live.Pairwise (fun s t => s.rank ≤ t.rank))
    (hdown : ∀ x y, x < y → p y = true → p x = true) {r : Seg × ℕ}
    (w : MergeAt h p (r :: rest) pw l0) (hpart : ∀ c, pw = some c → c.key = none)
    (hl0 : h.l0Aligned = true → ∀ c ∈ l0, c.key = none) :
    MergeAt h p rest (some ⟨r.1, 0⟩) (if h.l0Aligned then h.seekL0 r.2 r.1.fence.1 else l0) := by
  obtain ⟨done, cur, hparts, hdone, hcur⟩ := w.parts
  obtain ⟨f, hl0eq, hout, hin⟩ := w.pieces
  have hfits := hs.fits_live
  have hget : ∀ d ∈ done ++ (cur ++ r :: rest), h.parts[d.2]? = some d.1 :=
    fun d hd => List.mem_zipIdx_iff_getElem?.mp (hparts ▸ hd)
  have hr := hget r (by simp)
  have hrp := mem_parts.mp (List.mem_of_getElem? hr)
  have hbefore : ∀ q ∈ rest, ∃ x ∈ r.1.fence.2, x ≤ q.1.fence.1 := by
    have hpair := parts_before hs hnodup hsorted
    rw [← List.zipIdx_map_fst 0 h.parts, hparts, List.map_append, List.map_append,
      List.map_cons] at hpair
    have hrest :=
      (List.pairwise_cons.mp (List.pairwise_append.mp (List.pairwise_append.mp hpair).2.1).2.1).1
    exact fun q hq => hrest q.1 (List.mem_map_of_mem hq)
  have hzero : ∀ s : Seg, s.fence.1 = r.1.fence.1 → s.Fits → Cur.upto s p = ⟨s, 0⟩ := by
    intro s hlo hsf
    rw [Cur.upto,
      placeOf_zero (fun x hx => w.ahead r List.mem_cons_self x (hlo ▸ (hsf.inside x hx).1))]
  refine {
    parts := ⟨done ++ cur, [r], by rw [hparts]; simp, fun d hd => ?_, Or.inr ⟨r, rfl, by rw [hzero r.1 rfl (hfits _ hrp.1)]⟩⟩
    ahead := fun q hq => w.ahead q (List.mem_cons_of_mem _ hq)
    pieces := ?_ }
  · rcases List.mem_append.mp hd with hd | hd
    · exact hdone d hd
    · -- the one walked has nothing left
      rcases hcur with ⟨rfl, -, -⟩ | ⟨c, rfl, hpw⟩
      · exact absurd hd List.not_mem_nil
      · rw [List.mem_singleton.mp hd]
        have hc := mem_parts.mp (List.mem_of_getElem? (hget c (by simp)))
        exact (Cur.key_upto (hfits c.1 hc.1).sorted hdown).1 (hpart _ hpw)
  · by_cases hal : h.l0Aligned = true
    swap
    · rw [if_neg hal]
      refine ⟨f, hl0eq, fun s hsl hno => ?_, fun hyes => absurd hyes hal⟩
      rcases hout s hsl hno with htaken | ⟨hyes, -⟩
      · exact Or.inl htaken
      · exact absurd hyes hal
    · rw [if_pos hal, Levels.seekL0, if_pos hal, piecesOver_eq hsorted, List.filter_filter]
      have hover : ∀ s : Seg, h.parts[r.2]?.all (fun q => !h.l0Aligned || decide (s.fence.1 = q.fence.1))
          = decide (s.fence.1 = r.1.fence.1) := fun s => by rw [hr, Option.all_some, hal, Bool.not_true, Bool.false_or]
      simp only [hover]
      have hfence : ∀ s ∈ h.l0, s.fence.1 = r.1.fence.1 → s.fence = r.1.fence :=
        fun s hsl hlo => fence_of_aligned hs hal hsl (List.mem_of_getElem? hr) hlo
      refine ⟨fun s => s.mayReach r.1.fence.1 && decide (s.fence.1 = r.1.fence.1), ?_,
        fun s hsl hno => ?_, fun _ s hsl hyes q hq => ?_⟩
      · refine List.map_congr_left (fun s hsf => ?_)
        obtain ⟨hsl, hyes⟩ := List.mem_filter.mp hsf
        rw [Bool.and_eq_true, decide_eq_true_eq] at hyes
        have hsfits := hfits s (mem_l0.mp hsl).1
        rw [hsfits.cursorAt, hzero s hyes.2 hsfits, Cur.upto, placeOf_zero (fun x hx => ?_)]
        rw [keyBelow, decide_eq_false_iff_not, not_lt, ← hyes.2]
        exact (hsfits.inside x hx).1
      · by_cases hlo : s.fence.1 = r.1.fence.1
        · -- it begins where this one does, and so reaches its start
          have hreach : s.mayReach r.1.fence.1 = true := by
            rw [Seg.mayReach, Option.all_eq_true]
            intro x hx
            rw [decide_eq_true_eq, ← hlo]
            exact (hfits s (mem_l0.mp hsl).1).wide x hx
          dsimp only at hno
          rw [hreach, decide_eq_true hlo] at hno
          exact absurd hno (by simp)
        · cases hf : f s with
          | true =>
              refine Or.inl ((Cur.key_upto (hfits s (mem_l0.mp hsl).1).sorted hdown).1 (hl0 hal _ ?_))
              rw [hl0eq]
              exact List.mem_map_of_mem (List.mem_filter.mpr ⟨hsl, hf⟩)
          | false =>
              rcases hout s hsl hf with htaken | ⟨-, q, hq, hqs⟩
              · exact Or.inl htaken
              · rcases List.mem_cons.mp hq with rfl | hq
                · exact absurd (by rw [hqs]) hlo
                · exact Or.inr ⟨hal, q, hq, hqs⟩
      · rw [Bool.and_eq_true, decide_eq_true_eq] at hyes
        rw [hfence s hsl hyes.2]
        exact hbefore q hq

/-- **Moved on as far as it goes.** -/
lemma nextPart (hs : Settled h.live h.queue) (hnodup : h.live.Nodup)
    (hsorted : h.live.Pairwise (fun s t => s.rank ≤ t.rank))
    (hdown : ∀ x y, x < y → p y = true → p x = true) (w : MergeAt h p rest pw l0) :
    MergeAt h p (h.nextPart rest pw l0).1 (h.nextPart rest pw l0).2.1 (h.nextPart rest pw l0).2.2 ∧
      Standing h p (h.nextPart rest pw l0).1 (h.nextPart rest pw l0).2.1
      (h.nextPart rest pw l0).2.2 := by
  have hfits := hs.fits_live
  induction rest generalizing pw l0 with
  | nil => exact ⟨w, Or.inl rfl⟩
  | cons r rest ih =>
      obtain ⟨done, cur, hparts, -, hcur⟩ := w.parts
      obtain ⟨f, hl0eq, -, hin⟩ := w.pieces
      obtain ⟨c, rfl, hpw⟩ := hcur.resolve_left (fun hnil => absurd hnil.2.1 (List.cons_ne_nil _ _))
      have hmem : ∀ d ∈ done ++ ([c] ++ r :: rest), d.1 ∈ h.parts :=
        fun d hd => List.mem_of_getElem? (List.mem_zipIdx_iff_getElem?.mp (hparts ▸ hd))
      have hc := mem_parts.mp (hmem c (by simp))
      -- the partition walked, where it has a key left
      have hstandPart : ∀ x, (Cur.upto c.1 p).key = some x → Standing h p (r :: rest) pw l0 := by
        intro x hx
        obtain ⟨hxk, hleft⟩ := (Cur.key_upto (hfits c.1 hc.1).sorted hdown).2 x hx
        refine Or.inr ⟨_, x, Or.inl hpw, hx, Or.inl ⟨c.1, hc.1, hxk⟩, hleft, fun q hq => ?_⟩
        have hpair := parts_before hs hnodup hsorted
        rw [← List.zipIdx_map_fst 0 h.parts, hparts, List.map_append, List.map_append, List.map_cons] at hpair
        have hrest := (List.pairwise_cons.mp (List.pairwise_append.mp hpair).2.1).1
        obtain ⟨y, hy, hle⟩ := hrest q.1 (by simpa using List.mem_map_of_mem (f := Prod.fst) hq)
        exact (((hfits c.1 hc.1).inside x hxk).2 y hy).trans_le hle
      by_cases hal : h.l0Aligned = true
      · by_cases hall : (pw.all (fun c => c.key.isNone) && l0.all (fun c => c.key.isNone)) = true
        · rw [Levels.nextPart, if_pos hal, if_pos hall]
          rw [Bool.and_eq_true, List.all_eq_true, Option.all_eq_true] at hall
          have hnone : ∀ c : Cur, c.key.isNone = true → c.key = none := fun c hc => Option.isNone_iff_eq_none.mp hc
          have hmoved := w.moved hs hnodup hsorted hdown (fun c hc => hnone c (hall.1 c hc))
            (fun _ c hc => hnone c (hall.2 c hc))
          rw [if_pos hal] at hmoved
          exact ih hmoved
        · rw [Levels.nextPart, if_pos hal, if_neg hall]
          refine ⟨w, ?_⟩
          rw [Bool.and_eq_true, not_and_or, Bool.not_eq_true, Bool.not_eq_true, List.all_eq_false,
            hpw, Option.all_some, Option.isNone_eq_false_iff, Option.isSome_iff_exists] at hall
          rcases hall with ⟨x, hx⟩ | ⟨d, hd, hno⟩
          · exact hstandPart x hx
          · -- a piece over it has a key left
            rw [Bool.not_eq_true, Option.isNone_eq_false_iff, Option.isSome_iff_exists] at hno
            obtain ⟨x, hx⟩ := hno
            have hd' := hd
            rw [hl0eq, List.mem_map] at hd'
            obtain ⟨s, hsf, rfl⟩ := hd'
            obtain ⟨hsl, hyes⟩ := List.mem_filter.mp hsf
            have hslive := (mem_l0.mp hsl).1
            obtain ⟨hxk, hleft⟩ := (Cur.key_upto (hfits s hslive).sorted hdown).2 x hx
            refine Or.inr ⟨_, x, Or.inr ⟨hal, hd⟩, hx, Or.inl ⟨s, hslive, hxk⟩, hleft, fun q hq => ?_⟩
            obtain ⟨y, hy, hle⟩ := hin hal s hsl hyes q hq
            exact (((hfits s hslive).inside x hxk).2 y hy).trans_le hle
      · by_cases hany : pw.any (fun c => c.key.isNone) = true
        · rw [Levels.nextPart, if_neg hal, if_pos hany]
          rw [hpw, Option.any_some, Option.isNone_iff_eq_none] at hany
          have hmoved :=
            w.moved hs hnodup hsorted hdown
            (fun d hd => by rw [hpw] at hd; rw [← Option.some.inj hd, hany])
            (fun hyes => absurd hyes hal)
          rw [if_neg hal] at hmoved
          exact ih hmoved
        · rw [Levels.nextPart, if_neg hal, if_neg hany]
          refine ⟨w, ?_⟩
          rw [hpw, Option.any_some, Bool.not_eq_true, Option.isNone_eq_false_iff, Option.isSome_iff_exists] at hany
          obtain ⟨x, hx⟩ := hany
          exact hstandPart x hx

/-- **Moved on at a turn's start**, where it is. -/
lemma moves (hs : Settled h.live h.queue) (hnodup : h.live.Nodup)
    (hsorted : h.live.Pairwise (fun s t => s.rank ≤ t.rank))
    (hdown : ∀ x y, x < y → p y = true → p x = true) {padv : Bool}
    (w : MergeAt h p rest (if padv = true then pw.map Cur.advance else pw) l0)
    (hstand : padv = false → ¬ h.l0Aligned = true → Standing h p rest pw l0) :
    let v := if padv || h.l0Aligned then h.nextPart rest (if padv = true then pw.map Cur.advance else pw) l0
      else (rest, if padv = true then pw.map Cur.advance else pw, l0)
    MergeAt h p v.1 v.2.1 v.2.2 ∧ Standing h p v.1 v.2.1 v.2.2 := by
  intro v
  by_cases hmove : (padv || h.l0Aligned) = true
  · simp only [v, if_pos hmove]
    exact w.nextPart hs hnodup hsorted hdown
  · simp only [v, if_neg hmove]
    rw [Bool.not_eq_true, Bool.or_eq_false_iff] at hmove
    have hpw : (if padv = true then pw.map Cur.advance else pw) = pw := if_neg (by simp [hmove.1])
    rw [hpw] at w ⊢
    exact ⟨w, hstand hmove.1 (by simp [hmove.2])⟩

/-! ## One key -/

/-- What the partition walked says of a key. -/
def partSays (pw : Option Cur) (k : Bytes) : Delta Bytes := (pw.map (fun c => c.seg.delta k)).getD 1

/-- **At the next key**, below every partition ahead: the cursors stand at it, some source stands on
it, and what the scan has cursors over is all there is of it. -/
lemma at_key (hs : Settled h.live h.queue) (hnodup : h.live.Nodup)
    (hsorted : h.live.Pairwise (fun s t => s.rank ≤ t.rank)) (w : MergeAt h (keyBelow k) rest pw l0)
    (hheld : h.Held k) (hahead : ∀ r ∈ rest, k < r.1.fence.1) :
    (∀ c, pw = some c → c.Stands k) ∧ (∀ c ∈ l0, c.Stands k ∧ c.seg ∈ h.live) ∧
      nextKey (pw.bind Cur.key :: (l0.map Cur.key ++ [(h.unsealedAt (keyBelow k)).head?]))
        = some k ∧ (h.scanSources [partSays pw k] l0 k).prod = h.leaves k := by
  have hfits := hs.fits_live
  obtain ⟨done, cur, hparts, hdone, hcur⟩ := w.parts
  obtain ⟨f, hl0eq, hout, -⟩ := w.pieces
  obtain ⟨hin, hleast, -⟩ := unsealedAt_below (h := h) k
  have hself : keyBelow k k = false := decide_eq_false (lt_irrefl k)
  have hmem : ∀ d ∈ done ++ (cur ++ rest), d.1 ∈ h.parts :=
    fun d hd => List.mem_of_getElem? (List.mem_zipIdx_iff_getElem?.mp (hparts ▸ hd))
  have hpartsEq : h.parts = done.map Prod.fst ++ (cur.map Prod.fst ++ rest.map Prod.fst) := by
    rw [← List.map_append, ← List.map_append, ← hparts, List.zipIdx_map_fst]
  have hpwStands : ∀ c, pw = some c → c.Stands k := by
    intro c hc
    rcases hcur with ⟨-, -, hnone⟩ | ⟨d, rfl, hd⟩
    · rw [hnone] at hc
      exact absurd hc.symm (Option.some_ne_none c)
    · rw [hd] at hc
      rw [← Option.some.inj hc]
      exact Cur.stands_upto (hfits d.1 (mem_parts.mp (hmem d (by simp))).1).sorted k
  have hl0Stands : ∀ c ∈ l0, c.Stands k ∧ c.seg ∈ h.live := by
    intro c hc
    rw [hl0eq, List.mem_map] at hc
    obtain ⟨s, hsf, rfl⟩ := hc
    have hsl := (mem_l0.mp (List.mem_of_mem_filter hsf)).1
    exact ⟨Cur.stands_upto (hfits s hsl).sorted k, hsl⟩
  -- nothing beside the cursors holds the key
  have hdoneNot : ∀ d ∈ done, k ∉ d.1.keys := by
    intro d hd hk
    have htaken := hdone d hd k hk
    rw [hself] at htaken
    exact absurd htaken (by simp)
  have hrestNot : ∀ r ∈ rest, k ∉ r.1.keys := by
    intro r hr hk
    have hrl := (mem_parts.mp (hmem r (by simp [hr]))).1
    exact absurd ((hfits r.1 hrl).inside k hk).1 (not_le_of_gt (hahead r hr))
  have houtNot : ∀ s ∈ h.l0, f s = false → k ∉ s.keys := by
    intro s hsl hno hk
    rcases hout s hsl hno with htaken | ⟨-, r, hr, hrs⟩
    · have hyes := htaken k hk
      rw [hself] at hyes
      exact absurd hyes (by simp)
    · have hle := ((hfits s (mem_l0.mp hsl).1).inside k hk).1
      rw [← hrs] at hle
      exact absurd hle (not_le_of_gt (hahead r hr))
  refine ⟨hpwStands, hl0Stands, nextKey_eq ?_ (fun x hx => ?_), ?_⟩
  · rcases hheld with ⟨s, hsl, hk⟩ | hk
    · cases hpart : s.isPart with
      | true =>
          have hsp : s ∈ h.parts := mem_parts.mpr ⟨hsl, hpart⟩
          rw [hpartsEq, List.mem_append, List.mem_append] at hsp
          rcases hsp with hsp | hsp | hsp
          · obtain ⟨d, hd, rfl⟩ := List.mem_map.mp hsp
            exact absurd hk (hdoneNot d hd)
          · rcases hcur with ⟨rfl, -, -⟩ | ⟨d, rfl, hd⟩
            · exact absurd hsp List.not_mem_nil
            · rw [List.map_singleton, List.mem_singleton] at hsp
              rw [hd, Option.bind_some]
              have hstands := hpwStands _ hd
              exact List.mem_cons.mpr (Or.inl (hstands.key.mpr (hsp ▸ hk)).symm)
          · obtain ⟨r, hr, rfl⟩ := List.mem_map.mp hsp
            exact absurd hk (hrestNot r hr)
      | false =>
          have hsl0 : s ∈ h.l0 := mem_l0.mpr ⟨hsl, hpart⟩
          have hyes : f s = true := by
            by_contra hno
            exact houtNot s hsl0 (Bool.eq_false_of_not_eq_true hno) hk
          refine List.mem_cons_of_mem _ (List.mem_append_left _ (List.mem_map.mpr ⟨Cur.upto s (keyBelow k), ?_, ?_⟩))
          · rw [hl0eq]
            exact List.mem_map_of_mem (List.mem_filter.mpr ⟨hsl0, hyes⟩)
          · exact (Cur.stands_upto (hfits s hsl).sorted k).key.mpr hk
    · refine List.mem_cons_of_mem _ (List.mem_append_right _ ?_)
      rw [of_decide_eq_true (hin.mpr hk)]
      exact List.mem_singleton_self _
  · rcases List.mem_cons.mp hx with hx | hx
    · obtain ⟨c, hc, hck⟩ := Option.bind_eq_some_iff.mp hx.symm
      exact (hpwStands c hc).least x hck
    · rcases List.mem_append.mp hx with hx | hx
      · obtain ⟨c, hc, hck⟩ := List.mem_map.mp hx
        exact (hl0Stands c hc).1.least x hck
      · exact hleast x (List.mem_singleton.mp hx).symm
  · have hone : ∀ l : List (Seg × ℕ), (∀ d ∈ l, k ∉ d.1.keys) →
      ((l.map Prod.fst).map (fun s => s.delta k)).prod = 1 := by
      intro l hl
      refine List.prod_eq_one (fun d hd => ?_)
      rw [List.map_map, List.mem_map] at hd
      obtain ⟨e, he, rfl⟩ := hd
      exact Seg.delta_eq_one (hl e he)
    have hpart : (h.parts.map (fun s => s.delta k)).prod = partSays pw k := by
      rw [hpartsEq, List.map_append, List.map_append, List.prod_append, List.prod_append,
        hone done hdoneNot, hone rest hrestNot, one_mul, mul_one, partSays]
      rcases hcur with ⟨rfl, -, rfl⟩ | ⟨d, rfl, rfl⟩
      · rfl
      · rw [List.map_singleton, List.map_singleton, List.prod_singleton]
        rfl
    have hpieces : (l0.map (fun c => c.seg.delta k)).prod
      = (h.l0.map (fun s => s.delta k)).prod := by
      rw [hl0eq, List.map_map]
      exact prod_filter_of_one f (fun s => s.delta k) (fun s hsl hno => Seg.delta_eq_one (houtNot s hsl hno))
    rw [Levels.leaves, saysOf_split hs hnodup hsorted, Levels.scanSources, List.prod_append,
      List.prod_append, List.prod_append, List.prod_singleton, List.prod_singleton, hpieces, hpart]
    simp only [mul_assoc]

/-- **The key taken.** -/
lemma next (hs : Settled h.live h.queue) (w : MergeAt h (keyBelow k) rest pw l0)
    (hahead : ∀ r ∈ rest, k < r.1.fence.1) :
    MergeAt h (keyUpto k) rest (if decide (pw.bind Cur.key = some k)
    = true then pw.map Cur.advance else pw) (advancePast l0 k) := by
  have hfits := hs.fits_live
  obtain ⟨done, cur, hparts, hdone, hcur⟩ := w.parts
  obtain ⟨f, hl0eq, hout, hin⟩ := w.pieces
  have hmono : ∀ x, keyBelow k x = true → keyUpto k x = true :=
    fun x hx => (keyUpto_eq_true x).mpr ((keyBelow_eq_true x).mp hx).le
  refine {
    parts := ⟨done, cur, hparts, fun d hd x hx => hmono x (hdone d hd x hx), ?_⟩
    ahead := fun r hr x hx => decide_eq_false (not_le_of_gt ((hahead r hr).trans_le hx))
    pieces := ⟨f, ?_, fun s hsl hno => (hout s hsl hno).imp_left (fun htaken x hx => hmono x (htaken x hx)), hin⟩ }
  · rcases hcur with ⟨rfl, hrest, rfl⟩ | ⟨c, rfl, rfl⟩
    · refine Or.inl ⟨rfl, hrest, ?_⟩
      rw [Option.map_none, ite_self]
    · have hc : c.1 ∈ h.parts :=
        List.mem_of_getElem?
        (List.mem_zipIdx_iff_getElem?.mp (hparts ▸ (by simp : c ∈ done ++ ([c] ++ rest))))
      refine Or.inr ⟨c, rfl, ?_⟩
      rw [← Cur.advance_upto (hfits c.1 (mem_parts.mp hc).1).sorted k, Option.bind_some, Option.map_some]
      by_cases hk : (Cur.upto c.1 (keyBelow k)).key = some k
      · rw [if_pos (decide_eq_true hk), if_pos hk]
      · rw [if_neg (by simpa using hk), if_neg hk]
  · rw [hl0eq]
    exact advancePast_upto
      (fun s hsf => (hfits s (mem_l0.mp (List.mem_of_mem_filter hsf)).1).sorted) k

end MergeAt

/-! ## The scan -/

/-- **The merged scan from any point.** -/
lemma mergedLoop_eq (hs : Settled h.live h.queue) (hnodup : h.live.Nodup)
    (hsorted : h.live.Pairwise (fun s t => s.rank ≤ t.rank)) (ks : List Bytes)
    (hp : Upto h.Held p ks) (hdown : ∀ x y, x < y → p y = true → p x = true) {padv : Bool}
    (w : MergeAt h p rest (if padv = true then pw.map Cur.advance else pw) l0)
    (hstand : padv = false → ¬ h.l0Aligned = true → Standing h p rest pw l0) (n : ℕ) :
    h.mergedLoop n padv rest pw l0 (h.unsealedAt p)
    = (ks.take n).map (fun k => (k, (h.leaves k).vals)) := by
  have hfits := hs.fits_live
  induction ks generalizing p padv rest pw l0 n with
  | nil =>
      cases n with
      | zero => rfl
      | succ n =>
          have htaken : ∀ x, h.Held x → p x = true := by
            intro x hx
            by_contra hleft
            exact absurd ((hp.mem x).mpr ⟨hx, Bool.eq_false_of_not_eq_true hleft⟩) List.not_mem_nil
          have hnone : ∀ s ∈ h.live, (Cur.upto s p).key = none :=
            fun s hsl => Cur.key_upto_none (fun x hx => htaken x (Or.inl ⟨s, hsl, hx⟩))
          obtain ⟨w', -⟩ := MergeAt.moves hs hnodup hsorted hdown w hstand
          rw [Levels.mergedLoop]
          dsimp only at w' ⊢
          set v := if padv || h.l0Aligned then h.nextPart rest (if padv = true then pw.map Cur.advance else pw) l0
            else (rest, if padv = true then pw.map Cur.advance else pw, l0)
          obtain ⟨done, cur, hparts, -, hcur⟩ := w'.parts
          obtain ⟨f, hl0eq, -, -⟩ := w'.pieces
          have hnext : nextKey (v.2.1.bind Cur.key :: (v.2.2.map Cur.key ++ [(h.unsealedAt p).head?])) = none := by
            refine nextKey_none (fun x hx => ?_)
            rcases List.mem_cons.mp hx with rfl | hx
            · rcases hcur with ⟨-, -, hnil⟩ | ⟨c, rfl, hc⟩
              · rw [hnil, Option.bind_none]
              · have hcp : c.1 ∈ h.parts :=
                  List.mem_of_getElem?
                  (List.mem_zipIdx_iff_getElem?.mp (hparts ▸ (by simp : c ∈ done ++ ([c] ++ v.1))))
                rw [hc, Option.bind_some, hnone _ (mem_parts.mp hcp).1]
            · rcases List.mem_append.mp hx with hx | hx
              · rw [hl0eq, List.map_map] at hx
                obtain ⟨s, hsf, rfl⟩ := List.mem_map.mp hx
                exact hnone s (mem_l0.mp (List.mem_of_mem_filter hsf)).1
              · rw [List.mem_singleton.mp hx, Levels.unsealedAt, placeOf,
                  List.filter_eq_self.mpr (fun x hx => htaken x (Or.inr hx)),
                  List.drop_length, List.head?_nil]
          rw [hnext, List.take_nil, List.map_nil]
  | cons k ks ih =>
      cases n with
      | zero => rfl
      | succ n =>
          have hpk : ∀ x, h.Held x → p x = keyBelow k x := by
            intro x hx
            rw [Bool.eq_iff_iff, hp.at_head hx, keyBelow_eq_true]
          have hun : h.unsealedAt p = h.unsealedAt (keyBelow k) := unsealedAt_congr (fun x hx => hpk x (Or.inr hx))
          obtain ⟨hin, -, hrest⟩ := unsealedAt_below (h := h) k
          obtain ⟨w', hstand'⟩ := MergeAt.moves hs hnodup hsorted hdown w hstand
          rw [Levels.mergedLoop]
          dsimp only at w' hstand' ⊢
          set v := if padv || h.l0Aligned then h.nextPart rest (if padv = true then pw.map Cur.advance else pw) l0
            else (rest, if padv = true then pw.map Cur.advance else pw, l0)
          -- the key lies below every partition ahead
          have hahead : ∀ r ∈ v.1, k < r.1.fence.1 := by
            intro r hr
            rcases hstand' with hnil | ⟨c, x, -, -, hx, hleft, hlt⟩
            · rw [hnil] at hr
              exact absurd hr List.not_mem_nil
            · have hkx : k ≤ x := by
                rw [hpk x hx, keyBelow, decide_eq_false_iff_not, not_lt] at hleft
                exact hleft
              exact hkx.trans_lt (hlt r hr)
          have wk := w'.congr hpk (fun r hr x hx => decide_eq_false (not_lt_of_ge ((hahead r hr).le.trans hx)))
          obtain ⟨hpwStands, hl0Stands, hnext, hprod⟩ := wk.at_key hs hnodup hsorted hp.held_head hahead
          have hemit := emit_eq [MergeAt.partSays v.2.1 k] (le_refl _) hl0Stands hin
          rw [List.flatMap_singleton, List.length_singleton, hprod] at hemit
          have hpart : ∀ start : ℕ, (if (decide (v.2.1.bind Cur.key = some k) && decide (start = 0)) = true then
              (v.2.1.map Cur.values).getD [] else []) = if start = 0 then (MergeAt.partSays v.2.1 k).vals else [] := by
            intro start
            by_cases hstart : start = 0
            · rw [if_pos hstart, decide_eq_true hstart, Bool.and_true, MergeAt.partSays]
              cases hv : v.2.1 with
              | none => simp
              | some c =>
                  have hstands := hpwStands c hv
                  rw [Option.bind_some, Option.map_some, Option.map_some, Option.getD_some, Option.getD_some]
                  by_cases hk : c.key = some k
                  · rw [if_pos (decide_eq_true hk), (hstands.entry hk).1]
                  · rw [if_neg (by simpa using hk),
                      Seg.delta_eq_one (fun hmem => hk (hstands.key.mpr hmem)), Delta.vals_one]
            · rw [if_neg hstart, decide_eq_false hstart, Bool.and_false, if_neg (by simp)]
          rw [hun, hnext]
          dsimp only
          rw [hpart, List.append_assoc, hemit, hrest, List.take_succ_cons, List.map_cons]
          congr 1
          refine ih (hp.next keyUpto_eq_true) (fun x y hxy hy => ?_) (wk.next hs hahead) (fun hno hal => ?_) n
          · exact (keyUpto_eq_true x).mpr (hxy.le.trans ((keyUpto_eq_true y).mp hy))
          · -- the partition walked stands on a key past this one
            rcases hstand' with hnil | ⟨c, x, hc, hck, hx, hleft, hlt⟩
            · exact Or.inl hnil
            · have hc := hc.resolve_right (fun hyes => hal hyes.1)
              refine Or.inr ⟨c, x, Or.inl hc, hck, hx, ?_, hlt⟩
              rw [hpk x hx, keyBelow, decide_eq_false_iff_not, not_lt] at hleft
              have hne : x ≠ k := by
                rintro rfl
                rw [hc, Option.bind_some] at hno
                exact of_decide_eq_false hno hck
              exact decide_eq_false (not_le_of_gt (lt_of_le_of_ne hleft hne.symm))

/-! ## The start -/

/-- Where the pieces are those over the partition walked, the scan's start. -/
lemma start_aligned (hs : Settled h.live h.queue) (hnodup : h.live.Nodup)
    (hsorted : h.live.Pairwise (fun s t => s.rank ≤ t.rank)) (hal : h.l0Aligned = true)
    {done : List (Seg × ℕ)} {r : Seg × ℕ} (hparts : h.parts.zipIdx = done ++ r :: rest)
    (hdone : ∀ d ∈ done, ∃ x ∈ d.1.fence.2, x ≤ start) (hahead : ∀ q ∈ rest, start ≤ q.1.fence.1) :
    MergeAt h (keyBelow start) rest (some (r.1.cursorAt start)) (h.seekL0 r.2 start) := by
  have hfits := hs.fits_live
  have hget : ∀ d ∈ done ++ r :: rest, h.parts[d.2]? = some d.1 :=
    fun d hd => List.mem_zipIdx_iff_getElem?.mp (hparts ▸ hd)
  have hmem : ∀ d ∈ done ++ r :: rest, d.1 ∈ h.parts := fun d hd => List.mem_of_getElem? (hget d hd)
  have hr := hget r (by simp)
  have hrl := (mem_parts.mp (hmem r (by simp))).1
  have hover : ∀ s : Seg,
      h.parts[r.2]?.all (fun q => !h.l0Aligned || decide (s.fence.1 = q.fence.1))
      = decide (s.fence.1 = r.1.fence.1) :=
      fun s => by rw [hr, Option.all_some, hal, Bool.not_true, Bool.false_or]
  rw [Levels.seekL0, if_pos hal, piecesOver_eq hsorted, List.filter_filter]
  simp only [hover]
  refine {
    parts := ⟨done, [r], by rw [hparts]; rfl, fun d hd x hx => ?_, Or.inr ⟨r, rfl, by rw [(hfits r.1 hrl).cursorAt]⟩⟩
    ahead := fun q hq x hx => decide_eq_false (not_lt_of_ge ((hahead q hq).trans hx))
    pieces :=
    ⟨fun s => s.mayReach start && decide (s.fence.1 = r.1.fence.1), ?_, fun s hsl hno => ?_,
    fun _ s hsl hyes q hq => ?_⟩ }
  · obtain ⟨y, hy, hle⟩ := hdone d hd
    have hdl := (mem_parts.mp (hmem d (List.mem_append_left _ hd))).1
    exact (keyBelow_eq_true x).mpr ((((hfits d.1 hdl).inside x hx).2 y hy).trans_le hle)
  · exact List.map_congr_left
      (fun s hsf => (hfits s (mem_l0.mp (List.mem_of_mem_filter hsf)).1).cursorAt start)
  · have hsfits := hfits s (mem_l0.mp hsl).1
    dsimp only at hno
    rw [Bool.and_eq_false_iff] at hno
    rcases hno with hno | hno
    · exact Or.inl (fun x hx => (keyBelow_eq_true x).mpr (hsfits.lt_of_mayReach hno hx))
    · -- it lies over another partition
      have hall := hal
      rw [Levels.l0Aligned, Bool.and_eq_true, List.all_eq_true] at hall
      obtain ⟨q, hq, hqs⟩ := List.any_eq_true.mp (hall.2 s hsl)
      have hqs' : q.fence = s.fence := of_decide_eq_true hqs
      have hq' : q ∈ (done ++ r :: rest).map Prod.fst := by rw [← hparts, List.zipIdx_map_fst]; exact hq
      obtain ⟨d, hd, rfl⟩ := List.mem_map.mp hq'
      rcases List.mem_append.mp hd with hd | hd
      · obtain ⟨y, hy, hle⟩ := hdone d hd
        rw [hqs'] at hy
        exact Or.inl (fun x hx => (keyBelow_eq_true x).mpr (((hsfits.inside x hx).2 y hy).trans_le hle))
      · rcases List.mem_cons.mp hd with rfl | hd
        · exact absurd (by rw [hqs']) (of_decide_eq_false hno)
        · exact Or.inr ⟨hal, d, hd, hqs'⟩
  · rw [Bool.and_eq_true, decide_eq_true_eq] at hyes
    rw [fence_of_aligned hs hal hsl (hmem r (by simp)) hyes.2]
    have hpair := parts_before hs hnodup hsorted
    rw [← List.zipIdx_map_fst 0 h.parts, hparts, List.map_append, List.map_cons] at hpair
    exact (List.pairwise_cons.mp (List.pairwise_append.mp hpair).2.1).1 q.1 (List.mem_map_of_mem hq)

/-- And elsewhere: the first partition with a key there, or none. -/
lemma start_unaligned (hs : Settled h.live h.queue) (hnodup : h.live.Nodup)
    (hsorted : h.live.Pairwise (fun s t => s.rank ≤ t.rank)) (hal : ¬ h.l0Aligned = true)
    (done todo : List (Seg × ℕ)) (hparts : h.parts.zipIdx = done ++ todo)
    (hdone : ∀ d ∈ done, ∀ x ∈ d.1.keys, x < start)
    (hahead : ∀ q ∈ todo.tail, start ≤ q.1.fence.1) :
    MergeAt h (keyBelow start) (h.firstPart start todo).1 (h.firstPart start todo).2.1
      (h.seekL0 (h.firstPart start todo).2.2 start) ∧
      Standing h (keyBelow start) (h.firstPart start todo).1 (h.firstPart start todo).2.1
        (h.seekL0 (h.firstPart start todo).2.2 start) := by
  have hfits := hs.fits_live
  have hdown := keyBelow_down start
  have hpieces : ∀ (rest : List (Seg × ℕ)) (i : ℕ), ∃ f : Seg → Bool,
      h.seekL0 i start = (h.l0.filter f).map (fun s => Cur.upto s (keyBelow start)) ∧
        (∀ s ∈ h.l0, f s = false → (∀ x ∈ s.keys, keyBelow start x = true) ∨ h.l0Aligned = true ∧ ∃ r ∈ rest, r.1.fence = s.fence) ∧
        (h.l0Aligned = true → ∀ s ∈ h.l0, f s = true → ∀ r ∈ rest, ∃ x ∈ s.fence.2, x ≤ r.1.fence.1) := by
    intro rest i
    refine ⟨fun s => s.mayReach start, ?_, fun s hsl hno => Or.inl (fun x hx => ?_),
      fun hyes => absurd hyes hal⟩
    · rw [Levels.seekL0, if_neg hal]
      exact List.map_congr_left (fun s hsf => (hfits s (mem_l0.mp (List.mem_of_mem_filter hsf)).1).cursorAt start)
    · exact (keyBelow_eq_true x).mpr ((hfits s (mem_l0.mp hsl).1).lt_of_mayReach hno hx)
  induction todo generalizing done with
  | nil =>
      refine ⟨{
        parts := ⟨done, [], by rw [hparts]; rfl, fun d hd x hx => (keyBelow_eq_true x).mpr (hdone d hd x hx), Or.inl ⟨rfl, rfl, rfl⟩⟩
        ahead := fun r hr => absurd hr List.not_mem_nil
        pieces := hpieces [] _ }, Or.inl rfl⟩
  | cons r rest ih =>
      have hrp : r.1 ∈ h.parts :=
        List.mem_of_getElem?
        (List.mem_zipIdx_iff_getElem?.mp (hparts ▸ (by simp : r ∈ done ++ r :: rest)))
      have hrl := (mem_parts.mp hrp).1
      have hcur := (hfits r.1 hrl).cursorAt start
      rw [Levels.firstPart]
      by_cases hkey : ((r.1.cursorAt start).key.isSome || h.l0Aligned) = true
      · rw [if_pos hkey]
        refine ⟨{
          parts := ⟨done, [r], by rw [hparts]; rfl, fun d hd x hx => (keyBelow_eq_true x).mpr (hdone d hd x hx),
            Or.inr ⟨r, rfl, by rw [hcur]⟩⟩
          ahead := fun q hq x hx => decide_eq_false (not_lt_of_ge ((hahead q hq).trans hx))
          pieces := hpieces rest _ }, ?_⟩
        rw [Bool.not_eq_true] at hal
        rw [hal, Bool.or_false, Option.isSome_iff_exists] at hkey
        obtain ⟨x, hx⟩ := hkey
        have hx' := hx
        rw [hcur] at hx'
        obtain ⟨hxk, hleft⟩ := (Cur.key_upto (hfits r.1 hrl).sorted hdown).2 x hx'
        refine Or.inr ⟨_, x, Or.inl rfl, hx, Or.inl ⟨r.1, hrl, hxk⟩, hleft, fun q hq => ?_⟩
        have hpair := parts_before hs hnodup hsorted
        rw [← List.zipIdx_map_fst 0 h.parts, hparts, List.map_append, List.map_cons] at hpair
        obtain ⟨y, hy, hle⟩ := (List.pairwise_cons.mp (List.pairwise_append.mp hpair).2.1).1 q.1
          (List.mem_map_of_mem hq)
        exact (((hfits r.1 hrl).inside x hxk).2 y hy).trans_le hle
      · rw [if_neg hkey]
        rw [Bool.not_eq_true, Bool.or_eq_false_iff, Option.isSome_eq_false_iff, Option.isNone_iff_eq_none, hcur] at hkey
        refine ih (done ++ [r]) (by rw [hparts, List.append_assoc]; rfl) (fun d hd x hx => ?_)
          (fun q hq => hahead q (List.mem_of_mem_tail hq))
        rcases List.mem_append.mp hd with hd | hd
        · exact hdone d hd x hx
        · rw [List.mem_singleton.mp hd] at hx
          exact (keyBelow_eq_true x).mp ((Cur.key_upto (hfits r.1 hrl).sorted hdown).1 hkey.1 x hx)

/-- **The merged scan** hands out what is held from the start on. -/
theorem scanMerged_eq (hs : Settled h.live h.queue) (hnodup : h.live.Nodup)
    (hsorted : h.live.Pairwise (fun s t => s.rank ≤ t.rank)) (start : Bytes) (limit : ℕ) :
    h.scanMerged start limit = h.scanned start limit := by
  have hfits := hs.fits_live
  have hdown := keyBelow_down start
  obtain ⟨htake, htail, hne⟩ := firstReaching_spec hs hnodup hsorted start
  set t := h.firstReaching start with ht
  have hparts : h.parts.zipIdx = h.parts.zipIdx.take t ++ h.parts.zipIdx.drop t :=
    (List.take_append_drop t _).symm
  have hdone : ∀ d ∈ h.parts.zipIdx.take t, ∃ x ∈ d.1.fence.2, x ≤ start := by
    intro d hd
    refine htake d.1 ?_
    have hfst := List.mem_map_of_mem (f := Prod.fst) hd
    rwa [List.map_take, List.zipIdx_map_fst] at hfst
  have hahead : ∀ q ∈ (h.parts.zipIdx.drop t).tail, start ≤ q.1.fence.1 := by
    intro q hq
    refine htail q.1 ?_
    have hfst := List.mem_map_of_mem (f := Prod.fst) hq
    rwa [List.map_tail, List.map_drop, List.zipIdx_map_fst] at hfst
  have hat : MergeAt h (keyBelow start) (h.firstPart start (h.parts.zipIdx.drop t)).1
      (h.firstPart start (h.parts.zipIdx.drop t)).2.1
      (h.seekL0 (h.firstPart start (h.parts.zipIdx.drop t)).2.2 start) ∧
      (¬ h.l0Aligned = true → Standing h (keyBelow start) (h.firstPart start (h.parts.zipIdx.drop t)).1
        (h.firstPart start (h.parts.zipIdx.drop t)).2.1
        (h.seekL0 (h.firstPart start (h.parts.zipIdx.drop t)).2.2 start)) := by
    by_cases hal : h.l0Aligned = true
    · have hpn : h.parts ≠ [] := by
        intro hnil
        rw [Levels.l0Aligned, hnil] at hal
        exact absurd hal (by simp)
      obtain ⟨r, rest, hdrop⟩ := List.exists_cons_of_ne_nil (l := h.parts.zipIdx.drop t) (by
        intro hnil
        refine hne hpn ?_
        have hfst := congrArg (List.map Prod.fst) hnil
        rwa [List.map_drop, List.zipIdx_map_fst, List.map_nil] at hfst)
      rw [hdrop] at hparts hahead ⊢
      rw [Levels.firstPart, hal, Bool.or_true, if_pos rfl]
      exact ⟨start_aligned hs hnodup hsorted hal hparts hdone hahead, fun hno => absurd rfl hno⟩
    · have hun := start_unaligned hs hnodup hsorted hal _ _ hparts (fun d hd x hx => by
        obtain ⟨y, hy, hle⟩ := hdone d hd
        have hdp : d.1 ∈ h.parts := List.mem_of_getElem? (List.mem_zipIdx_iff_getElem?.mp (List.mem_of_mem_take hd))
        exact (((hfits d.1 (mem_parts.mp hdp).1).inside x hx).2 y hy).trans_le hle) hahead
      exact ⟨hun.1, fun _ => hun.2⟩
  rw [Levels.scanMerged, unsealedFrom_eq]
  exact mergedLoop_eq hs hnodup hsorted _ (upto_start start) hdown
    (by rw [if_neg (by simp)]; exact hat.1) (fun _ hal => hat.2 hal) limit

end At

end Supdb

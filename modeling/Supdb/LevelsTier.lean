import Supdb.LevelsMerge

/-!
# Piece merges

A piece merge makes one piece of a range's pieces, tombstones and all, and takes the newest sequence
among them.  It leaves out the pieces that a partition merge has taken, which are older than every
one it takes, so what it takes stands together in the order and what it writes can stand in that
place.

* **`TierOk`** – what holds of a piece merge in flight: its inputs have one fence, and any piece
  beside them is older than them all or newer than them all.
* `startTier_ok` – a piece merge as it starts, beside the merges in flight.
* `Settled.joinTier`, `saysOf_joinTier` – landing, it keeps the set settled and what it says.
-/

namespace Supdb

open StorageLib

/-- The live set without what a piece merge took, and with what it wrote. -/
def TierJob.joined (t : TierJob) (live : List Seg) : List Seg :=
  live.filter (fun s => decide (s ∉ t.inputs)) ++ t.outputs

/-- **A piece merge in flight** over a live set. -/
structure TierOk (live : List Seg) (t : TierJob) : Prop where
  sub : ∀ s ∈ t.inputs, s ∈ live ∧ s.isPart = false
  nodup : t.inputs.Nodup
  ne : t.inputs ≠ []
  same : ∀ s ∈ t.inputs, ∀ u ∈ t.inputs, u.fence = s.fence
  one : t.outputs.length ≤ 1
  /-- What it writes has the fence of what it takes, and the newest sequence. -/
  outs : ∀ o ∈ t.outputs, o.Fits ∧ o.isPart = false ∧
    ∃ s ∈ t.inputs, o.fence = s.fence ∧ o.seq = s.seq ∧ ∀ u ∈ t.inputs, u.seq ≤ o.seq
  /-- A piece beside them is older than all of them, or newer. -/
  between : ∀ s ∈ live, s.isPart = false → s ∉ t.inputs → (∀ u ∈ t.inputs, s.Older u) ∨
    ∀ u ∈ t.inputs, u.Older s
  merged : ∀ k, (t.outputs.map (·.delta k)).prod = saysOf t.inputs k

section Tier

variable {live queue : List Seg} {m : MergeJob} {t : TierJob} {f : Fence} {k : Bytes} {s o : Seg}

lemma TierJob.mem_joined : s ∈ t.joined live ↔ (s ∈ live ∧ s ∉ t.inputs) ∨ s ∈ t.outputs := by
  rw [TierJob.joined, List.mem_append, List.mem_filter, decide_eq_true_eq]

namespace TierOk

/-- A piece older than all it takes is older than what it writes. -/
lemma older_out (ht : TierOk live t) (ho : o ∈ t.outputs) (hall : ∀ u ∈ t.inputs, s.Older u) :
    s.Older o := by
  obtain ⟨-, -, u, hu, hfence, hseq, -⟩ := ht.outs o ho
  intro hmeet
  rw [hfence] at hmeet ⊢
  rw [hseq]
  exact hall u hu hmeet

/-- A piece newer than all it takes is newer than what it writes. -/
lemma out_older (ht : TierOk live t) (ho : o ∈ t.outputs) (hall : ∀ u ∈ t.inputs, u.Older s) :
    o.Older s := by
  obtain ⟨-, -, u, hu, hfence, hseq, -⟩ := ht.outs o ho
  intro hmeet
  rw [hfence] at hmeet ⊢
  rw [hseq]
  exact hall u hu hmeet

/-- The ranges are as they were. -/
lemma isRange_joined (ht : TierOk live t) : IsRange (t.joined live) f ↔ IsRange live f := by
  have hpart : ∀ p, p.isPart = true → (p ∈ t.joined live ↔ p ∈ live) := by
    intro p hp
    rw [TierJob.mem_joined]
    constructor
    · rintro (⟨hpl, -⟩ | ho)
      · exact hpl
      · exact absurd hp (by simp [(ht.outs p ho).2.1])
    · exact fun hpl => Or.inl ⟨hpl, fun hin => absurd hp (by simp [(ht.sub p hin).2])⟩
  have hex : ∀ q : Seg → Prop, (∃ p ∈ t.joined live, p.isPart = true ∧ q p) ↔
    ∃ p ∈ live, p.isPart = true ∧ q p := by
    intro q
    refine exists_congr (fun p => ?_)
    constructor
    · exact fun ⟨hp, hpp, hq⟩ => ⟨(hpart p hpp).mp hp, hpp, hq⟩
    · exact fun ⟨hp, hpp, hq⟩ => ⟨(hpart p hpp).mpr hp, hpp, hq⟩
  have hnone : ∀ l : List Seg, (∀ p ∈ l, p.isPart = false) ↔ ¬ ∃ p ∈ l, p.isPart = true ∧ True := by
    intro l
    simp only [and_true, not_exists, not_and, Bool.not_eq_true]
  rw [IsRange, IsRange, hex, hnone, hnone, hex]

end TierOk

/-- **A piece merge landing keeps the set settled.** -/
lemma Settled.joinTier (h : Settled live queue) (ht : TierOk live t) :
    Settled (t.joined live) queue := by
  have hold : ∀ s ∈ t.joined live, (s ∈ live ∧ s ∉ t.inputs) ∨ s ∈ t.outputs :=
    fun s hs => TierJob.mem_joined.mp hs
  have hpart : ∀ p ∈ t.joined live, p.isPart = true → p ∈ live := by
    intro p hp hpp
    rcases hold p hp with ⟨hpl, -⟩ | ho
    · exact hpl
    · exact absurd hpp (by simp [(ht.outs p ho).2.1])
  refine ⟨fun s hs => ?_, fun p hp q hq hpp hqp hne => h.apart p (hpart p hp hpp) q (hpart q hq hqp)
    hpp hqp hne, fun hex k => ?_,
    fun s hs hor f hf => ?_, fun s hs u hu hsp hup hne => ?_, fun s hs hsp u hu => ?_, h.lined,
    fun s hs hsp => ?_⟩
  · rcases List.mem_append.mp hs with hs | hs
    · rcases hold s hs with ⟨hsl, -⟩ | ho
      · exact h.fits_live s hsl
      · exact (ht.outs s ho).1
    · exact h.fits s (List.mem_append_right _ hs)
  · obtain ⟨p, hp, hpp⟩ := hex
    obtain ⟨q, hq, hqp, hqk⟩ := h.cover ⟨p, hpart p hp hpp, hpp⟩ k
    exact ⟨q, TierJob.mem_joined.mpr (Or.inl ⟨hq, fun hin => absurd hqp (by simp [(ht.sub q hin).2])⟩), hqp, hqk⟩
  · rw [ht.isRange_joined] at hf
    rcases List.mem_append.mp hs with hs | hs
    · rcases hold s hs with ⟨hsl, -⟩ | ho
      · exact h.coarse s (List.mem_append_left _ hsl) hor f hf
      · obtain ⟨-, -, u, hu, hfence, -⟩ := ht.outs s ho
        rw [hfence]
        exact h.coarse u (List.mem_append_left _ (ht.sub u hu).1) (Or.inl (ht.sub u hu).2) f hf
    · exact h.coarse s (List.mem_append_right _ hs) hor f hf
  · rcases hold s hs with ⟨hsl, hsn⟩ | hso
    · rcases hold u hu with ⟨hul, hun⟩ | huo
      · exact h.ordered s hsl u hul hsp hup hne
      · exact (ht.between s hsl hsp hsn).imp (ht.older_out huo) (ht.out_older huo)
    · rcases hold u hu with ⟨hul, hun⟩ | huo
      · exact (ht.between u hul hup hun).symm.imp (ht.out_older hso) (ht.older_out hso)
      · -- there is one output
        obtain ⟨a, ha⟩ := List.length_eq_one_iff.mp (le_antisymm ht.one (List.length_pos_of_mem hso))
        rw [ha, List.mem_singleton] at hso huo
        exact absurd (hso.trans huo.symm) hne
  · rcases hold s hs with ⟨hsl, -⟩ | ho
    · exact h.behind s hsl hsp u hu
    · exact ht.out_older ho (fun x hx => h.behind x (ht.sub x hx).1 (ht.sub x hx).2 u hu)
  · obtain ⟨x, hx⟩ := List.exists_mem_of_ne_nil _ ht.ne
    have hxl := (ht.sub x hx).1
    rw [h.first s hs hsp] at hxl
    exact absurd hxl List.not_mem_nil

/-- **A piece merge landing leaves what the set says.** -/
lemma saysOf_joinTier (h : Settled live queue) (ht : TierOk live t) (hnodup : live.Nodup)
    (hnodup' : (t.joined live).Nodup) (k : Bytes) : saysOf (t.joined live) k = saysOf live k := by
  have hjoin := h.joinTier ht
  have hperm : live.Perm (t.inputs ++ live.filter (fun s => decide (s ∉ t.inputs))) := by
    rw [List.perm_ext_iff_of_nodup hnodup (ht.nodup.append (hnodup.filter _) (fun s hs hs' => ?_))]
    · intro s
      rw [List.mem_append, List.mem_filter, decide_eq_true_eq]
      constructor
      · exact fun hs => or_iff_not_imp_left.mpr (fun hnot => ⟨hs, hnot⟩)
      · exact fun hs => hs.elim (fun hin => (ht.sub s hin).1) And.left
    · exact absurd hs (by simpa using (List.mem_filter.mp hs').2)
  have houts : settle Seg.reach Seg.rank Seg.delta t.outputs k
    = (t.outputs.map (·.delta k)).prod := by
    refine settle_eq_prod_of_lt ?_ (fun o ho hk => (ht.outs o ho).1.delta_eq_one hk)
    rcases Nat.le_one_iff_eq_zero_or_eq_one.mp ht.one with h0 | h1
    · rw [List.length_eq_zero_iff.mp h0]
      exact List.Pairwise.nil
    · obtain ⟨a, ha⟩ := List.length_eq_one_iff.mp h1
      rw [ha]
      exact List.pairwise_singleton _ _
  refine settle_replace (hjoin.ranked hnodup') (h.ranked hnodup) List.perm_append_comm hperm ?_
    (fun x hx hxk => ?_)
  · rw [houts, ht.merged]
    rfl
  · rw [List.mem_filter, decide_eq_true_eq] at hx
    obtain ⟨hxl, hxn⟩ := hx
    have hxk := Seg.reach_eq_true.mp hxk
    cases hxp : x.isPart with
    | true =>
        refine Or.inl (fun a ha _ => Seg.rank_lt_of_level hxp ?_)
        exact (List.mem_append.mp ha).elim (fun ho => (ht.outs a ho).2.1) (fun hin => (ht.sub a hin).2)
    | false =>
        refine (ht.between x hxl hxp hxn).imp (fun hall a ha hak => ?_) (fun hall a ha hak => ?_)
        · have hak := Seg.reach_eq_true.mp hak
          rcases List.mem_append.mp ha with ho | hin
          · exact (ht.older_out ho hall).rank_lt hxp (ht.outs a ho).2.1 hxk hak
          · exact (hall a hin).rank_lt hxp (ht.sub a hin).2 hxk hak
        · have hak := Seg.reach_eq_true.mp hak
          rcases List.mem_append.mp ha with ho | hin
          · exact (ht.out_older ho hall).rank_lt (ht.outs a ho).2.1 hxp hak hxk
          · exact (hall a hin).rank_lt (ht.sub a hin).2 hxp hak hxk

/-! ## In flight -/

/-- A piece merge outlives a landing. -/
lemma TierOk.land {pieces rest : List Seg} (h : Settled live (pieces ++ rest))
    (ht : TierOk live t) : TierOk (live ++ pieces) t where
  sub s hs := ⟨List.mem_append_left _ (ht.sub s hs).1, (ht.sub s hs).2⟩
  nodup := ht.nodup
  ne := ht.ne
  same := ht.same
  one := ht.one
  outs := ht.outs
  between s hs hsp hnot := by
    rcases List.mem_append.mp hs with hs | hs
    · exact ht.between s hs hsp hnot
    · exact Or.inr (fun u hu => h.behind u (ht.sub u hu).1 (ht.sub u hu).2 s (List.mem_append_left _ hs))
  merged := ht.merged

/-- A piece merge outlives a partition merge's landing. -/
lemma TierOk.join (hm : MergeOk live m) (ht : TierOk live t)
    (hfree : ∀ s ∈ t.inputs, s ∉ m.inputs) : TierOk (m.joined live) t where
  sub s hs := ⟨MergeJob.mem_joined.mpr (Or.inr ⟨(ht.sub s hs).1, hfree s hs⟩), (ht.sub s hs).2⟩
  nodup := ht.nodup
  ne := ht.ne
  same := ht.same
  one := ht.one
  outs := ht.outs
  between s hs hsp hnot := by
    rcases MergeJob.mem_joined.mp hs with ho | ⟨hs, -⟩
    · exact absurd hsp (by simp [(hm.outs s ho).2.1])
    · exact ht.between s hs hsp hnot
  merged := ht.merged

/-- A partition merge outlives a piece merge's landing. -/
lemma MergeOk.joinTier (hm : MergeOk live m) (ht : TierOk live t)
    (hfree : ∀ s ∈ t.inputs, s ∉ m.inputs) : MergeOk (t.joined live) m where
  sub s hs := TierJob.mem_joined.mpr (Or.inl ⟨hm.sub s hs, fun hin => hfree s hin hs⟩)
  nodup := hm.nodup
  ne := hm.ne
  ranges f hf := ht.isRange_joined.mpr (hm.ranges f hf)
  parts p hp hpp := by
    rcases TierJob.mem_joined.mp hp with ⟨hp, -⟩ | ho
    · exact hm.parts p hp hpp
    · exact absurd hpp (by simp [(ht.outs p ho).2.1])
  part := hm.part
  within s hs f hf := hm.within s hs f (ht.isRange_joined.mp hf)
  older s hs hsp u hu hup hnot := by
    rcases TierJob.mem_joined.mp hu with ⟨hu, -⟩ | ho
    · exact hm.older s hs hsp u hu hup hnot
    · exact ht.older_out ho (fun x hx => hm.older s hs hsp x (ht.sub x hx).1 (ht.sub x hx).2 (hfree x hx))
  outs := hm.outs
  apart := hm.apart
  cover := hm.cover
  merged := hm.merged

end Tier

/-! ## A piece merge as it starts -/

section Start

variable {h : Levels} {f : Fence}

lemma le_max_getD {ns : List ℕ} {n d : ℕ} (hn : n ∈ ns) : n ≤ ns.max?.getD d ∧
    ns.max?.getD d ∈ ns := by
  cases hm : ns.max? with
  | none =>
      rw [List.max?_eq_none_iff] at hm
      rw [hm] at hn
      exact absurd hn List.not_mem_nil
  | some m =>
      obtain ⟨hmem, hle⟩ := List.max?_eq_some_iff.mp hm
      exact ⟨hle n hn, hmem⟩

/-- **A piece merge as it starts**, over one partition's range and beside the merges in flight. -/
lemma startTier_ok (hs : Settled h.live h.queue) (hnodup : h.live.Nodup)
    (hsorted : h.live.Pairwise (fun s t => s.rank ≤ t.rank))
    (hids : ∀ s ∈ h.live, ∀ t ∈ h.live, s.name = t.name → s = t)
    (hmerges : ∀ m ∈ h.merging, MergeOk h.live m) (hf : f ∈ h.parts.map Seg.fence)
    (hne : h.tierInputs f ≠ []) (id : ℕ) :
    TierOk h.live ⟨h.tierInputs f, Levels.tierOutputs id h.covered f (h.tierInputs f)⟩ ∧
      ∀ m ∈ h.merging, ∀ s ∈ h.tierInputs f, s ∉ m.inputs := by
  have hmem : ∀ s, s ∈ h.tierInputs f ↔ s ∈ h.live ∧ s.isPart = false ∧ s.fence = f ∧
    ∀ m ∈ h.merging, s ∉ m.inputs := by
    intro s
    simp only [Levels.tierInputs, List.mem_filter, Bool.and_eq_true, Bool.not_eq_true',
      decide_eq_true_eq, List.any_eq_false]
    constructor
    · rintro ⟨hsl, ⟨hsp, hsf⟩, hfree⟩
      exact ⟨hsl, hsp, hsf, fun m hm hin => hfree m hm (List.mem_map_of_mem hin)⟩
    · rintro ⟨hsl, hsp, hsf, hfree⟩
      refine ⟨hsl, ⟨hsp, hsf⟩, fun m hm hin => ?_⟩
      obtain ⟨x, hx, hname⟩ := List.mem_map.mp hin
      exact hfree m hm (hids x ((hmerges m hm).sub x hx) s hsl hname ▸ hx)
  obtain ⟨p, hp, hpf⟩ := List.mem_map.mp hf
  have hrange : IsRange h.live f := Or.inl ⟨p, (mem_parts.mp hp).1, (mem_parts.mp hp).2, hpf⟩
  have hsub : (h.tierInputs f).Sublist h.live := List.filter_sublist
  have hsaid := merged_inputs hs hnodup hsorted hsub
  refine ⟨⟨fun s hsi => ⟨((hmem s).mp hsi).1, ((hmem s).mp hsi).2.1⟩, hsub.nodup hnodup, hne,
    fun s hsi u hu => ?_, ?_, fun o ho => ?_,
    fun s hsl hsp hnot => ?_, fun k => ?_⟩, fun m hm s hsi => ((hmem s).mp hsi).2.2.2 m hm⟩
  · rw [((hmem s).mp hsi).2.2.1, ((hmem u).mp hu).2.2.1]
  · rw [Levels.tierOutputs]
    split_ifs <;> simp
  · simp only [Levels.tierOutputs] at ho
    split_ifs at ho
    · exact absurd ho List.not_mem_nil
    · rw [List.mem_singleton] at ho
      subst ho
      obtain ⟨s, hsi⟩ := List.exists_mem_of_ne_nil _ hne
      obtain ⟨-, hmax⟩ := le_max_getD (d := h.covered) (List.mem_map_of_mem (f := Seg.seq) hsi)
      obtain ⟨u, hu, huseq⟩ := List.mem_map.mp hmax
      refine ⟨⟨hs.wide_range hrange, pairwise_tierEntries _, fun k hk => ?_⟩, rfl, u, hu, ?_,
        huseq.symm, fun x hx => ?_⟩
      · obtain ⟨e, he, rfl⟩ := List.mem_map.mp hk
        obtain ⟨x, hx, hxk⟩ := mem_allKeys_inputs.mp (mem_tierEntries.mp he).1
        obtain ⟨hxl, -, hxf, -⟩ := (hmem x).mp hx
        have hin := (hs.fits x (List.mem_append_left _ hxl)).inside _ hxk
        rwa [hxf] at hin
      · exact ((hmem u).mp hu).2.2.1.symm
      · exact (le_max_getD (List.mem_map_of_mem hx)).1
  · by_cases hap : RangesApart s.fence f
    · refine Or.inl (fun u hu hmeet => ?_)
      rw [((hmem u).mp hu).2.2.1] at hmeet
      exact absurd hap hmeet
    · have hin : Within f s.fence := (hs.coarse s (List.mem_append_left _ hsl) (Or.inl hsp) f hrange).resolve_left hap
      by_cases hsf : s.fence = f
      · -- a piece of the range that is left is a merge's
        obtain ⟨m, hm, hsm⟩ : ∃ m ∈ h.merging, s ∈ m.inputs := by
          by_contra hno
          exact hnot ((hmem s).mpr ⟨hsl, hsp, hsf, fun m hm hsm => hno ⟨m, hm, hsm⟩⟩)
        refine Or.inl (fun u hu => ?_)
        obtain ⟨hul, hup, -, hfree⟩ := (hmem u).mp hu
        exact (hmerges m hm).older s hsm hsp u hul hup (hfree m hm)
      · -- a piece that reaches further is older
        refine Or.inl (fun u hu => ?_)
        obtain ⟨hul, hup, huf, -⟩ := (hmem u).mp hu
        rcases hs.ordered s hsl u hul hsp hup (fun heq => hnot (heq ▸ hu)) with hold | hold
        · exact hold
        · have hwide := (hs.fits_live s hsl).wide
          rw [Seg.Older, huf] at hold
          obtain ⟨hback, -⟩ := hold (fun hap' => hap hap'.symm)
          exact absurd (hback.antisymm hin hwide) hsf
  · rw [← hsaid k]
    simp only [Levels.tierOutputs]
    split_ifs with hkeys
    · rw [merged_of_not_mem (by rw [hkeys]; exact List.not_mem_nil)]
      rfl
    · rw [List.map_singleton, List.prod_singleton]
      exact deltaIn_tierEntries _ k

end Start

end Supdb

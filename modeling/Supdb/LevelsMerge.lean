import Supdb.LevelsTables

/-!
# Merges beside landings

A partition merge takes the partitions of its ranges and every piece over them as the set stands
when it starts, and works while tables land and other merges run.  Where it lands, what it wrote
stands in for what it took: below everything that came since.

* **`MergeOk`** – what holds of a merge in flight: its inputs are live, the partitions among them
  are those of its ranges, they reach no other range, and every piece beside them that shares a key
  with one of them is newer.
* `mergeJob_ok` – a merge as it starts.
* `Settled.join`, `saysOf_join` – a merge landing keeps the set settled and what it leaves of every
  key.
* `MergeOk.land`, `MergeOk.join` – a merge in flight outlives a landing, and another merge's.
-/

namespace Supdb

open StorageLib

/-- The ranges a merge rewrites. -/
def MergeJob.ranges (m : MergeJob) : List Fence := m.fences.getD [([], none)]

/-- The live set without what a merge took, and with what it wrote. -/
def MergeJob.joined (m : MergeJob) (live : List Seg) : List Seg :=
  m.outputs ++ live.filter (fun s => decide (s ∉ m.inputs))

/-- **A merge in flight** over a live set. -/
structure MergeOk (live : List Seg) (m : MergeJob) : Prop where
  sub : ∀ s ∈ m.inputs, s ∈ live
  nodup : m.inputs.Nodup
  ne : m.inputs ≠ []
  ranges : ∀ f ∈ m.ranges, IsRange live f
  /-- The partitions it takes are those of its ranges. -/
  parts : ∀ p ∈ live, p.isPart = true → (p ∈ m.inputs ↔ p.fence ∈ m.ranges)
  part : m.fences ≠ none → ∃ p ∈ m.inputs, p.isPart = true
  /-- What it takes reaches no other range. -/
  within : ∀ s ∈ m.inputs, ∀ f, IsRange live f → f ∈ m.ranges ∨ RangesApart s.fence f
  /-- A piece it leaves is newer than any it takes. -/
  older : ∀ s ∈ m.inputs, s.isPart = false → ∀ t ∈ live, t.isPart = false → t ∉ m.inputs → s.Older t
  outs : ∀ o ∈ m.outputs, o.Fits ∧ o.isPart = true ∧ ∃ f ∈ m.ranges, Within o.fence f
  apart : m.outputs.Pairwise (fun a b => RangesApart a.fence b.fence)
  cover : (m.fences = none ∧ m.outputs = []) ∨ ∀ f ∈ m.ranges, ∀ k, f.Holds k →
    ∃ o ∈ m.outputs, o.fence.Holds k
  /-- What it writes of a key: the values its inputs leave, and nothing masked. -/
  merged : ∀ k, (m.outputs.map (·.delta k)).prod = ⟨false, (saysOf m.inputs k).vals⟩

section Join

variable {live queue : List Seg} {m a b : MergeJob} {f : Fence} {k : Bytes}

lemma MergeJob.mem_joined {s : Seg} : s ∈ m.joined live ↔ s ∈ m.outputs ∨ s ∈ live ∧
    s ∉ m.inputs := by
  rw [MergeJob.joined, List.mem_append, List.mem_filter, decide_eq_true_eq]

namespace MergeOk

/-- A merge has a range that its inputs reach. -/
lemma exists_range (hm : MergeOk live m) (h : Settled live queue) :
    ∃ f ∈ m.ranges, IsRange live f := by
  obtain ⟨s, hs⟩ := List.exists_mem_of_ne_nil _ hm.ne
  have hwide := (h.fits_live s (hm.sub s hs)).wide
  obtain ⟨f, hf, hk⟩ := h.exists_range s.fence.1
  rcases hm.within s hs f hf with hin | hap
  · exact ⟨f, hin, hf⟩
  · exact absurd hk (hap _ hwide.inRange)

/-- **The ranges behind a landing** are ranges that stood, or lie inside one that the merge took. -/
lemma range_joined (hm : MergeOk live m) (h : Settled live queue) (hf : IsRange (m.joined live) f) :
    IsRange live f ∨ ∃ g ∈ m.ranges, Within f g := by
  rcases hf with ⟨p, hp, hpart, rfl⟩ | ⟨hnone, rfl⟩
  · rcases MergeJob.mem_joined.mp hp with ho | ⟨hp, -⟩
    · exact Or.inr (hm.outs p ho).2.2
    · exact Or.inl (Or.inl ⟨p, hp, hpart, rfl⟩)
  · obtain ⟨g, hg, hrange⟩ := hm.exists_range h
    rcases hm.cover with ⟨hnil, -⟩ | hcover
    · refine Or.inr ⟨([], none), ?_, Within.refl _⟩
      rw [MergeJob.ranges, hnil]
      exact List.mem_singleton_self _
    · obtain ⟨o, ho, -⟩ := hcover g hg g.1 (h.wide_range hrange).inRange
      exact absurd (hnone o (MergeJob.mem_joined.mpr (Or.inl ho))) (by simp [(hm.outs o ho).2.1])

/-- A partition left and an output share no key. -/
lemma apart_out (hm : MergeOk live m) (h : Settled live queue) {o p : Seg} (ho : o ∈ m.outputs)
    (hp : p ∈ live)
    (hpart : p.isPart = true) (hnot : p ∉ m.inputs) : RangesApart p.fence o.fence := by
  obtain ⟨-, -, f, hf, hin⟩ := hm.outs o ho
  rcases h.range_apart (Or.inl ⟨p, hp, hpart, rfl⟩) (hm.ranges f hf) with heq | hap
  · exact absurd ((hm.parts p hp hpart).mpr (heq ▸ hf)) hnot
  · exact hap.of_within hin

/-- Two outputs share no key. -/
lemma apart_outs (hm : MergeOk live m) {o p : Seg} (ho : o ∈ m.outputs) (hp : p ∈ m.outputs)
    (hne : o ≠ p) : RangesApart o.fence p.fence := by
  have hsymm : Std.Symm (fun a b : Seg => RangesApart a.fence b.fence) := ⟨fun _ _ hap => hap.symm⟩
  exact hm.apart.forall ho hp hne

end MergeOk

/-- **A merge landing keeps the set settled.** -/
lemma Settled.join (h : Settled live queue) (hm : MergeOk live m)
    (halone : m.fences = none → ∀ p ∈ live, p.isPart = false) : Settled (m.joined live) queue := by
  have hpiece : ∀ s ∈ m.joined live, s.isPart = false → s ∈ live ∧ s ∉ m.inputs := by
    intro s hs hsp
    rcases MergeJob.mem_joined.mp hs with ho | hs
    · exact absurd hsp (by simp [(hm.outs s ho).2.1])
    · exact hs
  refine ⟨fun s hs => ?_, fun p hp q hq hpp hqp hne => ?_, fun hex k => ?_, fun s hs hor f hf => ?_,
    fun s hs t ht hsp htp hne => ?_, fun s hs hsp t ht => ?_, h.lined, fun s hs hsp => ?_⟩
  · rcases List.mem_append.mp hs with hs | hs
    · rcases MergeJob.mem_joined.mp hs with ho | ⟨hs, -⟩
      · exact (hm.outs s ho).1
      · exact h.fits_live s hs
    · exact h.fits s (List.mem_append_right _ hs)
  · rcases MergeJob.mem_joined.mp hp with hpo | ⟨hpl, hpi⟩
    · rcases MergeJob.mem_joined.mp hq with hqo | ⟨hql, hqi⟩
      · exact hm.apart_outs hpo hqo hne
      · exact (hm.apart_out h hpo hql hqp hqi).symm
    · rcases MergeJob.mem_joined.mp hq with hqo | ⟨hql, hqi⟩
      · exact hm.apart_out h hqo hpl hpp hpi
      · exact h.apart p hpl q hql hpp hqp hne
  · obtain ⟨g, hg, hk⟩ := h.exists_range k
    by_cases hmine : g ∈ m.ranges
    · rcases hm.cover with ⟨hnil, hout⟩ | hcover
      · -- a merge of no key leaves no partition
        obtain ⟨p, hp, hpart⟩ := hex
        rcases MergeJob.mem_joined.mp hp with ho | ⟨hp, -⟩
        · rw [hout] at ho
          exact absurd ho List.not_mem_nil
        · exact absurd (halone hnil p hp) (by simp [hpart])
      · obtain ⟨o, ho, hok⟩ := hcover g hmine k hk
        exact ⟨o, MergeJob.mem_joined.mpr (Or.inl ho), (hm.outs o ho).2.1, hok⟩
    · rcases hg with ⟨p, hp, hpart, rfl⟩ | ⟨hnone, rfl⟩
      · exact ⟨p, MergeJob.mem_joined.mpr (Or.inr ⟨hp, fun hin => hmine ((hm.parts p hp hpart).mp hin)⟩), hpart, hk⟩
      · obtain ⟨f, hf, hrange⟩ := hm.exists_range h
        rcases h.range_apart hrange (Or.inr ⟨hnone, rfl⟩) with heq | hap
        · exact absurd (heq ▸ hf) hmine
        · exact absurd (full_holds _) (hap _ (h.wide_range hrange).inRange)
  · have hold : s ∈ live ++ queue := by
      rcases List.mem_append.mp hs with hs | hs
      · rcases hor with hsp | hq
        · exact List.mem_append_left _ (hpiece s hs hsp).1
        · exact List.mem_append_right _ hq
      · exact List.mem_append_right _ hs
    rcases hm.range_joined h hf with hf | ⟨g, hg, hin⟩
    · exact h.coarse s hold hor f hf
    · rcases h.coarse s hold hor g (hm.ranges g hg) with hap | hwithin
      · exact Or.inl (hap.of_within hin)
      · exact Or.inr (hin.trans hwithin)
  · exact h.ordered s (hpiece s hs hsp).1 t (hpiece t ht htp).1 hsp htp hne
  · exact h.behind s (hpiece s hs hsp).1 hsp t ht
  · have hnil := h.first s hs hsp
    obtain ⟨x, hx⟩ := List.exists_mem_of_ne_nil _ hm.ne
    have := hm.sub x hx
    rw [hnil] at this
    exact absurd this List.not_mem_nil

/-- **What a merge took lies below what it left**, key by key. -/
lemma MergeOk.rank_lt (hm : MergeOk live m) {s t : Seg} (hs : s ∈ m.inputs) (ht : t ∈ live)
    (hnot : t ∉ m.inputs) (hks : s.fence.Holds k) (hkt : t.fence.Holds k) : s.rank < t.rank := by
  have hsl := hm.sub s hs
  have hne : s ≠ t := fun heq => hnot (heq ▸ hs)
  cases htp : t.isPart with
  | true =>
      rcases hm.within s hs t.fence (Or.inl ⟨t, ht, htp, rfl⟩) with hin | hap
      · exact absurd ((hm.parts t ht htp).mpr hin) hnot
      · exact absurd hkt (hap k hks)
  | false =>
      cases hsp : s.isPart with
      | true => exact Seg.rank_lt_of_level hsp htp
      | false => exact (hm.older s hs hsp t ht htp hnot).rank_lt hsp htp hks hkt

/-- **A merge landing leaves every key what it had**: its outputs stand in for its inputs, their
tombstones done. -/
lemma saysOf_join (h : Settled live queue) (hm : MergeOk live m) (hnodup : live.Nodup)
    (hjoin : Settled (m.joined live) queue) (hnodup' : (m.joined live).Nodup) (k : Bytes) :
    ∃ d : Delta Bytes, saysOf live k = saysOf m.inputs k * d ∧
    saysOf (m.joined live) k = ⟨false, (saysOf m.inputs k).vals⟩ * d := by
  have hperm : live.Perm (m.inputs ++ live.filter (fun s => decide (s ∉ m.inputs))) := by
    rw [List.perm_ext_iff_of_nodup hnodup (hm.nodup.append (hnodup.filter _) (fun s hs hs' => ?_))]
    · intro s
      rw [List.mem_append, List.mem_filter, decide_eq_true_eq]
      constructor
      · exact fun hs => or_iff_not_imp_left.mpr (fun hnot => ⟨hs, hnot⟩)
      · exact fun hs => hs.elim (hm.sub s) And.left
    · exact absurd hs (by simpa using (List.mem_filter.mp hs').2)
  have hleft : ∀ t, t ∈ live.filter (fun s => decide (s ∉ m.inputs)) → t ∈ live ∧ t ∉ m.inputs := by
    intro t ht
    rwa [List.mem_filter, decide_eq_true_eq] at ht
  have hranked := h.ranked hnodup
  refine ⟨saysOf (live.filter (fun s => decide (s ∉ m.inputs))) k, ?_, ?_⟩
  · rw [saysOf, settle_perm hranked hperm,
      settle_append (hranked.perm hperm) (fun s hs t ht hks hkt => ?_)]
    · rfl
    · exact hm.rank_lt hs (hleft t ht).1 (hleft t ht).2 (Seg.reach_eq_true.mp hks) (Seg.reach_eq_true.mp hkt)
  · rw [saysOf, MergeJob.joined,
      settle_append (hjoin.ranked hnodup') (fun o ho t ht hks hkt => ?_), ← hm.merged k]
    · congr 1
      refine settle_eq_prod_of_lt (hm.apart.imp (fun {a b} hap k hka hkb => ?_))
        (fun o ho hk => (hm.outs o ho).1.delta_eq_one hk)
      exact absurd (Seg.reach_eq_true.mp hkb) (hap k (Seg.reach_eq_true.mp hka))
    · obtain ⟨htl, htn⟩ := hleft t ht
      cases htp : t.isPart with
      | true => exact absurd (Seg.reach_eq_true.mp hks) (hm.apart_out h ho htl htp htn k (Seg.reach_eq_true.mp hkt))
      | false => exact Seg.rank_lt_of_level (hm.outs o ho).2.1 htp

/-! ## Merges in flight -/

/-- A merge outlives a landing: what lands is newer than what it took. -/
lemma MergeOk.land {pieces rest : List Seg} (h : Settled live (pieces ++ rest))
    (hm : MergeOk live m) : MergeOk (live ++ pieces) m := by
  have hpiece : ∀ s ∈ pieces, s.isPart = false := by
    intro s hs
    rw [← Bool.not_eq_true]
    intro hsp
    obtain ⟨x, hx⟩ := List.exists_mem_of_ne_nil _ hm.ne
    have hxl := hm.sub x hx
    rw [h.first s (List.mem_append_left _ hs) hsp] at hxl
    exact absurd hxl List.not_mem_nil
  have hpart : ∀ p, p ∈ live ++ pieces → p.isPart = true → p ∈ live := by
    intro p hp hpp
    refine (List.mem_append.mp hp).resolve_right (fun hnew => ?_)
    exact absurd hpp (by simp [hpiece p hnew])
  have hrange : ∀ f, IsRange (live ++ pieces) f ↔ IsRange live f := by
    intro f
    refine ⟨fun hf => (Settled.isRange_land hf).resolve_right ?_, ?_⟩
    · rintro ⟨s, hs, hsp, -⟩
      exact absurd hsp (by simp [hpiece s hs])
    · rintro (⟨p, hp, hpp, rfl⟩ | ⟨hnone, rfl⟩)
      · exact Or.inl ⟨p, List.mem_append_left _ hp, hpp, rfl⟩
      · exact Or.inr ⟨fun p hp => (List.mem_append.mp hp).elim (hnone p) (hpiece p), rfl⟩
  exact {
    sub := fun s hs => List.mem_append_left _ (hm.sub s hs)
    nodup := hm.nodup
    ne := hm.ne
    ranges := fun f hf => (hrange f).mpr (hm.ranges f hf)
    parts := fun p hp hpp => hm.parts p (hpart p hp hpp) hpp
    part := hm.part
    within := fun s hs f hf => hm.within s hs f ((hrange f).mp hf)
    older := fun s hs hsp t ht htp hnot => (List.mem_append.mp ht).elim (fun ht => hm.older s hs hsp t ht htp hnot)
      (fun ht => h.behind s (hm.sub s hs) hsp t (List.mem_append_left _ ht))
    outs := hm.outs
    apart := hm.apart
    cover := hm.cover
    merged := hm.merged }

/-- Two merges of ranges given, which take nothing in common, have no range in common. -/
lemma MergeOk.ranges_disjoint (ha : MergeOk live a) (hb : MergeOk live b) (hb' : b.fences ≠ none)
    (hdis : ∀ s ∈ a.inputs, s ∉ b.inputs) (hfa : f ∈ a.ranges) (hfb : f ∈ b.ranges) : False := by
  rcases ha.ranges f hfa with ⟨p, hp, hpart, rfl⟩ | ⟨hnone, -⟩
  · exact hdis p ((ha.parts p hp hpart).mpr hfa) ((hb.parts p hp hpart).mpr hfb)
  · obtain ⟨p, hp, hpart⟩ := hb.part hb'
    exact absurd hpart (by simp [hnone p (hb.sub p hp)])

/-- A merge outlives another's landing. -/
lemma MergeOk.join (h : Settled live queue) (ha : MergeOk live a) (hb : MergeOk live b)
    (hb' : b.fences ≠ none)
    (hdis : ∀ s ∈ a.inputs, s ∉ b.inputs) (hnew : ∀ o ∈ a.outputs, o ∉ live) :
    MergeOk (a.joined live) b := by
  have hpiece : ∀ s ∈ a.joined live, s.isPart = false → s ∈ live := by
    intro s hs hsp
    rcases MergeJob.mem_joined.mp hs with ho | hs
    · exact absurd hsp (by simp [(ha.outs s ho).2.1])
    · exact hs.1
  have hsub : ∀ s ∈ b.inputs, s ∈ a.joined live :=
    fun s hs => MergeJob.mem_joined.mpr (Or.inr ⟨hb.sub s hs, fun hin => hdis s hin hs⟩)
  refine ⟨hsub, hb.nodup, hb.ne, fun f hf => ?_, fun p hp hpart => ?_, hb.part, fun s hs f hf => ?_,
    fun s hs hsp t ht htp hnot => hb.older s hs hsp t (hpiece t ht htp) htp hnot, hb.outs, hb.apart,
    hb.cover, hb.merged⟩
  · rcases hb.ranges f hf with ⟨p, hp, hpart, rfl⟩ | ⟨hnone, -⟩
    · exact Or.inl ⟨p, hsub p ((hb.parts p hp hpart).mpr hf), hpart, rfl⟩
    · obtain ⟨p, hp, hpart⟩ := hb.part hb'
      exact absurd hpart (by simp [hnone p (hb.sub p hp)])
  · rcases MergeJob.mem_joined.mp hp with ho | ⟨hp, -⟩
    · refine ⟨fun hin => absurd (hb.sub p hin) (hnew p ho), fun hin => ?_⟩
      -- an output lies inside a range of the other merge
      obtain ⟨hfits, -, f, hf, hwithin⟩ := ha.outs p ho
      rcases h.range_apart (hb.ranges _ hin) (ha.ranges f hf) with heq | hap
      · exact absurd (ha.ranges_disjoint hb hb' hdis hf (heq ▸ hin)) id
      · exact absurd (hap.of_within hwithin) hfits.wide.not_apart_self
    · exact hb.parts p hp hpart
  · rcases ha.range_joined h hf with hf | ⟨g, hg, hwithin⟩
    · exact hb.within s hs f hf
    · rcases hb.within s hs g (ha.ranges g hg) with hin | hap
      · exact absurd (ha.ranges_disjoint hb hb' hdis hg hin) id
      · exact Or.inr (hap.of_within hwithin)

end Join

/-! ## A merge as it starts -/

section Start

variable {h : Levels} {given : Option (List Fence)} {fs : List Fence} {f : Fence} {k : Bytes}

/-- **The ranges a merge of given ranges resolves to** are partitions' fences, and closed under what
its inputs reach. -/
lemma coverInputs_spec (hs : Settled h.live h.queue) (gs : List Fence) :
    (∀ f ∈ h.coverInputs gs, ∃ p ∈ h.live, p.isPart = true ∧ p.fence = f) ∧
      ∀ s ∈ h.live, ∀ f ∈ h.coverInputs gs, (∃ k, s.fence.Holds k ∧ f.Holds k) → ∀ p ∈ h.live, p.isPart = true →
        ¬ RangesApart s.fence p.fence → p.fence ∈ h.coverInputs gs := by
  have hwide : ∀ s ∈ h.live, s.fence.Wide :=
    fun s hsl => (hs.fits_live s hsl).wide
  have hpart : ∀ f ∈ h.coverInputs gs, ∃ p ∈ h.live, p.isPart = true ∧ p.fence = f := by
    intro f hf
    obtain ⟨p, hp, rfl⟩ := List.mem_map.mp (resolveFences_sub hf)
    exact ⟨p, (mem_parts.mp hp).1, (mem_parts.mp hp).2, rfl⟩
  refine ⟨hpart, fun s hsl f hf hmeet p hp hpp hshare => ?_⟩
  obtain ⟨q, hq, hqp, rfl⟩ := hpart f hf
  have hkey : ∃ k, s.fence.Holds k ∧ p.fence.Holds k := by
    by_contra hnone
    exact hshare (fun k hsk hpk => hnone ⟨k, hsk, hpk⟩)
  cases hsp : s.isPart with
  | true =>
      -- a partition shares a key with itself only
      obtain ⟨k, hsk, hqk⟩ := hmeet
      obtain ⟨k', hsk', hpk'⟩ := hkey
      have hone : ∀ t ∈ h.live, t.isPart = true → ∀ x, s.fence.Holds x → t.fence.Holds x → s = t := by
        intro t ht htp x hsx htx
        by_contra hne
        exact hs.apart s hsl t ht hsp htp hne x hsx htx
      rw [← hone p hp hpp k' hsk' hpk', hone q hq hqp k hsk hqk]
      exact hf
  | false =>
      refine mem_resolveFences.mpr (.rule (List.mem_map_of_mem (mem_l0.mpr ⟨hsl, hsp⟩)) (mem_resolveFences.mp hf) ?_
        (List.mem_map_of_mem (mem_parts.mpr ⟨hp, hpp⟩)) ?_)
      · exact (fencesOverlap_iff (hwide s hsl) (hwide q hq)).mpr hmeet
      · exact (fencesOverlap_iff (hwide s hsl) (hwide p hp)).mpr hkey

/-- **What a merge takes**, as a set: all there is, or whatever shares a key with a range of it. -/
lemma mem_mergeInputs (hs : Settled h.live h.queue) (hfs : ∀ f ∈ fs, f.Wide) {s : Seg} :
    s ∈ h.mergeInputs (some fs) ↔ s ∈ h.live ∧ ∃ f ∈ fs, ∃ k, s.fence.Holds k ∧ f.Holds k := by
  rw [Levels.mergeInputs, List.mem_filter]
  refine and_congr_right (fun hsl => ?_)
  rw [List.any_eq_true]
  refine exists_congr (fun f => and_congr_right (fun hf => ?_))
  exact fencesOverlap_iff (hs.fits_live s hsl).wide (hfs f hf)

/-- The segments of a merge are in order. -/
lemma mergeInputs_sublist (fences : Option (List Fence)) :
    (h.mergeInputs fences).Sublist h.live := by
  cases fences with
  | none => exact List.Sublist.refl _
  | some fs => exact List.filter_sublist

/-- What the inputs of a merge say, as it reads them. -/
lemma merged_inputs (hs : Settled h.live h.queue) (hnodup : h.live.Nodup)
    (hsorted : h.live.Pairwise (fun s t => s.rank ≤ t.rank)) {inputs : List Seg}
    (hsub : inputs.Sublist h.live) (k : Bytes) :
    merged (inputs.map Seg.input) k = saysOf inputs k := by
  rw [merged, List.map_map, saysOf, settle_eq_prod ((hs.ranked hnodup).sublist hsub)
    (hsorted.sublist hsub)
    (fun s hsi hk => hs.silent (List.mem_append_left _ (hsub.subset hsi)) hk)]
  rfl

lemma mem_allKeys_inputs {inputs : List Seg} : k ∈ allKeys (inputs.map Seg.input) ↔
    ∃ s ∈ inputs, k ∈ s.keys := by
  rw [mem_allKeys, List.map_map]
  constructor
  · rintro ⟨l, hl, hk⟩
    obtain ⟨s, hsi, rfl⟩ := List.mem_map.mp hl
    exact ⟨s, hsi, hk⟩
  · rintro ⟨s, hsi, hk⟩
    exact ⟨s.keys, List.mem_map.mpr ⟨s, hsi, rfl⟩, hk⟩

/-- **What a merge writes**: partitions that fit, that cut its ranges, and that say together what
its inputs leave. -/
lemma mergeOutputs_spec (plan : MergePlan) {inputs : List Seg}
    (hne : allKeys (inputs.map Seg.input) ≠ [])
    (hfences : ∀ fs ∈ plan.fences, FencesFor fs (allKeys (inputs.map Seg.input)))
    (hapart : ∀ fs ∈ plan.fences, fs.Pairwise RangesApart) :
    (∀ o ∈ Levels.mergeOutputs plan inputs, o.Fits ∧ o.isPart = true ∧
      ∃ f ∈ plan.fences.getD [([], none)], Within o.fence f) ∧
      (Levels.mergeOutputs plan inputs).Pairwise (fun a b => RangesApart a.fence b.fence) ∧
      (∀ f ∈ plan.fences.getD [([], none)], ∀ k, f.Holds k → ∃ o ∈ Levels.mergeOutputs plan inputs,
      o.fence.Holds k) ∧ ∀ k, ((Levels.mergeOutputs plan inputs).map (·.delta k)).prod
      = ⟨false, (merged (inputs.map Seg.input) k).vals⟩ := by
  have hsorted := pairwise_allKeys (inputs.map Seg.input)
  set ins := inputs.map Seg.input with hins
  obtain ⟨hflat, hin⟩ := shares_flat plan.parts plan.maxKeys hsorted hne hfences
  have hcuts := cutsOf_shares plan.parts plan.maxKeys hsorted hne hfences
  set ss := shares plan.fences plan.parts plan.maxKeys (allKeys ins) with hss
  have houts : Levels.mergeOutputs plan inputs
      = (compactParts plan ins).map (fun p => (⟨.piece p.1, partEntries ins p.2⟩ : Seg)) := by
    rw [Levels.mergeOutputs, if_neg hne]
  have hfenceMap : (Levels.mergeOutputs plan inputs).map Seg.fence = ss.map Share.fence := by
    rw [houts, List.map_map, compactParts, ← map_partsFrom Share.fence]
    exact List.map_congr_left (fun p hp => (fence_of_mem_partsFrom hp).1)
  have hwide : ∀ f ∈ ss.map Share.fence, Wide f := by
    intro f hf
    obtain ⟨s, hsm, rfl⟩ := List.mem_map.mp hf
    exact (hin s hsm).1
  have hgroups : (ss.map Share.fence).Pairwise RangesApart ∧
      (∀ g ∈ ss.map Share.fence, ∃ f ∈ plan.fences.getD [([], none)], Within g f) ∧
        ∀ f ∈ plan.fences.getD [([], none)], ∀ k, InRange f k → ∃ g ∈ ss.map Share.fence, InRange g k := by
    cases hpf : plan.fences with
    | none =>
        rw [hpf] at hcuts
        have hone : List.Forall₂ (fun f g => Spans f.1 f.2 g) [(([], none) : Fence)] [ss.map Share.fence] :=
          List.Forall₂.cons hcuts List.Forall₂.nil
        have hspec := spans_groups hone (List.pairwise_singleton _ _) (by simpa using hwide)
        simpa using hspec
    | some fs =>
        rw [hpf] at hcuts
        obtain ⟨groups, hflatten, hforall⟩ := hcuts
        rw [hflatten] at hwide ⊢
        exact spans_groups hforall (hapart fs hpf) hwide
  obtain ⟨hpair, hinside, hcover⟩ := hgroups
  refine ⟨fun o ho => ?_, ?_, fun f hf k hk => ?_, fun k => ?_⟩
  · have hfence : o.fence ∈ ss.map Share.fence := hfenceMap ▸ List.mem_map_of_mem ho
    rw [houts] at ho
    obtain ⟨p, hp, rfl⟩ := List.mem_map.mp ho
    obtain ⟨hpf, hps⟩ := fence_of_mem_partsFrom hp
    obtain ⟨hw, hkeys⟩ := hin p.2 hps
    have hpar : p.1.kind = .par := by
      obtain ⟨⟨s, j⟩, -, rfl⟩ := List.mem_map.mp hp
      rfl
    refine ⟨⟨?_, ?_, fun k hk => ?_⟩, ?_, hinside _ hfence⟩
    · exact hwide _ hfence
    · rw [Seg.keys, keys_partEntries]
      refine (hsorted.sublist ?_).filter _
      rw [← hflat, List.flatMap_def]
      exact List.sublist_flatten_of_mem (List.mem_map_of_mem hps)
    · rw [Seg.keys, keys_partEntries] at hk
      have hholds := hkeys k (List.mem_filter.mp hk).1
      rwa [← hpf] at hholds
    · rw [Seg.isPart, Seg.said, decide_eq_true_eq]
      exact hpar
  · rw [← List.pairwise_map (f := Seg.fence), hfenceMap]
    exact hpair
  · obtain ⟨g, hg, hgk⟩ := hcover f hf k hk
    rw [← hfenceMap] at hg
    obtain ⟨o, ho, rfl⟩ := List.mem_map.mp hg
    exact ⟨o, ho, hgk⟩
  · rw [houts, List.map_map]
    exact prod_compactParts hfences hne k

/-- A merge of everything, over no partition. -/
lemma mergeJob_whole (hs : Settled h.live h.queue) (hnodup : h.live.Nodup)
    (hsorted : h.live.Pairwise (fun s t => s.rank ≤ t.rank)) {parts maxKeys : ℕ} (hne : h.live ≠ [])
    (hnone : h.parts = []) : MergeOk h.live (h.mergeJob none parts maxKeys) := by
  have hno : ∀ p ∈ h.live, p.isPart = false := parts_eq_nil.mp hnone
  have hfull : ∀ f, IsRange h.live f → f = ([], none) := by
    rintro f (⟨p, hp, hpart, -⟩ | ⟨-, hf⟩)
    · exact absurd hpart (by simp [hno p hp])
    · exact hf
  have hmerged := merged_inputs hs hnodup hsorted (List.Sublist.refl h.live)
  have houts : (∀ o ∈ (h.mergeJob none parts maxKeys).outputs, o.Fits ∧ o.isPart = true ∧
        ∃ f ∈ [(([], none) : Fence)], Within o.fence f) ∧
      (h.mergeJob none parts maxKeys).outputs.Pairwise (fun a b => RangesApart a.fence b.fence) ∧
      ((h.mergeJob none parts maxKeys).outputs = [] ∨
        ∀ f ∈ [(([], none) : Fence)], ∀ k, Fence.Holds f k →
        ∃ o ∈ (h.mergeJob none parts maxKeys).outputs, o.fence.Holds k) ∧
      ∀ k, ((h.mergeJob none parts maxKeys).outputs.map (·.delta k)).prod = ⟨false, (saysOf h.live k).vals⟩ := by
    by_cases hkeys : allKeys (h.live.map Seg.input) = []
    · have hnil : (h.mergeJob none parts maxKeys).outputs = [] := if_pos hkeys
      rw [hnil]
      refine ⟨fun o ho => absurd ho List.not_mem_nil, List.Pairwise.nil, Or.inl rfl, fun k => ?_⟩
      rw [← hmerged k, merged_of_not_mem (by rw [hkeys]; exact List.not_mem_nil)]
      rfl
    · obtain ⟨h1, h2, h3, h4⟩ := mergeOutputs_spec (h.mergePlan none parts maxKeys) hkeys
        (fun fs hfs => absurd hfs.symm (Option.some_ne_none fs))
        (fun fs hfs => absurd hfs.symm (Option.some_ne_none fs))
      refine ⟨h1, h2, Or.inr h3, fun k => ?_⟩
      rw [← hmerged k]
      exact h4 k
  obtain ⟨h1, h2, h3, h4⟩ := houts
  exact {
    sub := fun s hsl => hsl
    nodup := hnodup
    ne := hne
    ranges := fun f hf => Or.inr ⟨hno, List.mem_singleton.mp hf⟩
    parts := fun p hp hpart => absurd hpart (by simp [hno p hp])
    part := fun hsome => absurd rfl hsome
    within := fun s _ f hf => Or.inl (by rw [hfull f hf]; exact List.mem_singleton_self _)
    older := fun s _ _ t ht _ hnot => absurd ht hnot
    outs := h1
    apart := h2
    cover := h3.imp_left (fun hnil => ⟨rfl, hnil⟩)
    merged := h4 }

/-- A merge of ranges given. -/
lemma mergeJob_ranges (hs : Settled h.live h.queue) (hnodup : h.live.Nodup)
    (hsorted : h.live.Pairwise (fun s t => s.rank ≤ t.rank)) {parts maxKeys : ℕ} (gs : List Fence)
    (hkeys : ∃ s ∈ (h.mergeJob (some gs) parts maxKeys).inputs, s.keys ≠ []) :
    MergeOk h.live (h.mergeJob (some gs) parts maxKeys) := by
  obtain ⟨hpart, hclosed⟩ := coverInputs_spec hs gs
  have hwide : ∀ s ∈ h.live, Wide s.fence :=
    fun s hsl => (hs.fits_live s hsl).wide
  have hfw : ∀ f ∈ h.coverInputs gs, f.Wide := by
    intro f hf
    obtain ⟨p, hp, -, rfl⟩ := hpart f hf
    exact hwide p hp
  have hmem : ∀ {s}, s ∈ (h.mergeJob (some gs) parts maxKeys).inputs ↔
      s ∈ h.live ∧ ∃ f ∈ h.coverInputs gs, ∃ k, s.fence.Holds k ∧ f.Holds k :=
      mem_mergeInputs hs hfw
  have hranges : ∀ f ∈ h.coverInputs gs, IsRange h.live f := fun f hf => Or.inl (hpart f hf)
  -- what it takes reaches no range but its own
  have hreach : ∀ s ∈ (h.mergeJob (some gs) parts maxKeys).inputs, ∀ f, IsRange h.live f →
      f ∈ h.coverInputs gs ∨ RangesApart s.fence f := by
    intro s hsi f hf
    obtain ⟨hsl, g, hg, hmeet⟩ := hmem.mp hsi
    rw [or_iff_not_imp_right]
    intro hshare
    rcases hf with ⟨p, hp, hpp, rfl⟩ | ⟨hnone, -⟩
    · exact hclosed s hsl g hg hmeet p hp hpp hshare
    · obtain ⟨q, hq, hqp, -⟩ := hpart g hg
      exact absurd hqp (by simp [hnone q hq])
  have hparts : ∀ p ∈ h.live, p.isPart = true →
    (p ∈ (h.mergeJob (some gs) parts maxKeys).inputs ↔ p.fence ∈ h.coverInputs gs) := by
    intro p hp hpp
    constructor
    · intro hpi
      rcases hreach p hpi p.fence (Or.inl ⟨p, hp, hpp, rfl⟩) with hin | hap
      · exact hin
      · exact absurd hap (hwide p hp).not_apart_self
    · exact fun hin => hmem.mpr ⟨hp, p.fence, hin, p.fence.1, (hwide p hp).inRange, (hwide p hp).inRange⟩
  have hkeysNe : allKeys ((h.mergeInputs (some (h.coverInputs gs))).map Seg.input) ≠ [] := by
    obtain ⟨s, hsi, hsk⟩ := hkeys
    obtain ⟨k, hk⟩ := List.exists_mem_of_ne_nil _ hsk
    exact List.ne_nil_of_mem (mem_allKeys_inputs.mpr ⟨s, hsi, hk⟩)
  have hbefore : (h.coverInputs gs).Pairwise Fence.Before := by
    have hspans := spans_ranges hs hnodup hsorted
    obtain ⟨s, hsi, -⟩ := hkeys
    obtain ⟨-, g, hg, -⟩ := hmem.mp hsi
    obtain ⟨q, hq, hqp, -⟩ := hpart g hg
    have hne : h.parts ≠ [] := List.ne_nil_of_mem (mem_parts.mpr ⟨hq, hqp⟩)
    rw [Levels.ranges, if_neg hne] at hspans
    refine pairwise_resolveFences (tiles_iff_spans.mpr hspans) (fun f hf => ?_) (List.Perm.refl _)
    obtain ⟨p, hp, rfl⟩ := List.mem_map.mp hf
    exact hwide p (mem_parts.mp hp).1
  have hfor : FencesFor (h.coverInputs gs)
    (allKeys ((h.mergeInputs (some (h.coverInputs gs))).map Seg.input)) := by
    refine ⟨hfw, hbefore, fun k hk => ?_⟩
    obtain ⟨s, hsi, hks⟩ := mem_allKeys_inputs.mp hk
    have hsl := (hmem.mp hsi).1
    have hkf := (hs.fits_live s hsl).inside k hks
    obtain ⟨f, hf, hfk⟩ := hs.exists_range k
    rcases hreach s hsi f hf with hin | hap
    · exact ⟨f, hin, hfk⟩
    · exact absurd hfk (hap k hkf)
  have hapart : (h.coverInputs gs).Pairwise RangesApart :=
    hbefore.imp (fun {f g} hb => by obtain ⟨x, hx, hle⟩ := hb; exact apart_of_le hx hle)
  obtain ⟨h1, h2, h3, h4⟩ :=
    mergeOutputs_spec (h.mergePlan (some (h.coverInputs gs)) parts maxKeys) hkeysNe
    (fun fs hfs => by rw [← Option.some.inj hfs]; exact hfor)
    (fun fs hfs => by rw [← Option.some.inj hfs]; exact hapart)
  have hsub : (h.mergeInputs (some (h.coverInputs gs))).Sublist h.live := mergeInputs_sublist _
  refine ⟨fun s hsi => (hmem.mp hsi).1, hsub.nodup hnodup, ?_, hranges, hparts, fun _ => ?_, hreach,
    fun s hsi hsp t ht htp hnot => ?_, h1, h2, Or.inr h3, fun k => ?_⟩
  · obtain ⟨s, hsi, -⟩ := hkeys
    exact List.ne_nil_of_mem hsi
  · obtain ⟨s, hsi, -⟩ := hkeys
    obtain ⟨-, g, hg, -⟩ := hmem.mp hsi
    obtain ⟨q, hq, hqp, hqf⟩ := hpart g hg
    exact ⟨q, (hparts q hq hqp).mpr (by rw [hqf]; exact hg), hqp⟩
  · -- a piece that it leaves shares no key with one it takes
    refine fun hmeet => absurd (fun k hsk htk => hnot ?_) hmeet
    obtain ⟨f, hf, hfk⟩ := hs.exists_range k
    rcases hreach s hsi f hf with hin | hap
    · exact hmem.mpr ⟨ht, f, hin, k, htk, hfk⟩
    · exact absurd hfk (hap k hsk)
  · refine (h4 k).trans ?_
    rw [merged_inputs hs hnodup hsorted hsub k]
    rfl

end Start

end Supdb

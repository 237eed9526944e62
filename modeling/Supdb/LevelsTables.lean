import Supdb.LevelsOrder

/-!
# Tables and the levels

A table frozen is cut at the ranges as they stand, and its pieces wait their turn; by the time they
land, the ranges may be finer.  Their place in the order is settled at the freeze: behind every
segment live and every piece that waits.

* `spans_ranges` – the ranges of a settled set, in the order the live set is sorted in, tile the
  keys.
* `prod_sealPieces` – the pieces of a table say together what its records do.
* `Settled.freeze`, `Settled.land` – both keep the set settled; `saysOf_land`, a landing puts a
  table's pieces on top.
-/

namespace Supdb

open StorageLib

/-! ## The ranges -/

lemma tiles_iff_spans {fs : List Fence} : ∀ {lo : Bytes}, Tiles lo fs ↔ Spans lo none fs := by
  induction fs with
  | nil => exact Iff.rfl
  | cons f fs ih =>
      intro lo
      cases fs with
      | nil => exact Iff.rfl
      | cons g fs => exact exists_congr (fun m => and_congr_right (fun _ => ih))

section Ranges

variable {h : Levels} {f : Fence}

/-- The ranges a seal cuts at. -/
def Levels.ranges (h : Levels) : List Fence :=
  if h.parts = [] then [([], none)] else h.parts.map Seg.fence

lemma mem_parts {s : Seg} : s ∈ h.parts ↔ s ∈ h.live ∧ s.isPart = true := by
  rw [Levels.parts, List.mem_filter]

lemma mem_l0 {s : Seg} : s ∈ h.l0 ↔ s ∈ h.live ∧ s.isPart = false := by
  rw [Levels.l0, List.mem_filter, Bool.not_eq_true']

lemma parts_eq_nil : h.parts = [] ↔ ∀ p ∈ h.live, p.isPart = false := by
  rw [Levels.parts, List.filter_eq_nil_iff]
  simp only [Bool.not_eq_true]

lemma mem_ranges : f ∈ h.ranges ↔ IsRange h.live f := by
  rw [Levels.ranges, IsRange]
  split_ifs with hnil
  · have hnone := parts_eq_nil.mp hnil
    rw [List.mem_singleton]
    constructor
    · exact fun hf => Or.inr ⟨hnone, hf⟩
    · rintro (⟨p, hp, hpart, -⟩ | ⟨-, hf⟩)
      · exact absurd (hnone p hp) (by simp [hpart])
      · exact hf
  · rw [List.mem_map]
    constructor
    · rintro ⟨p, hp, rfl⟩
      exact Or.inl ⟨p, (mem_parts.mp hp).1, (mem_parts.mp hp).2, rfl⟩
    · rintro (⟨p, hp, hpart, hf⟩ | ⟨hnone, -⟩)
      · exact ⟨p, mem_parts.mpr ⟨hp, hpart⟩, hf⟩
      · exact absurd (parts_eq_nil.mpr hnone) hnil

lemma ranges_sealPlan (putOne shape : Bool) (limit : ℕ) : (h.sealPlan putOne shape limit).ranges
    = h.ranges := by
  simp only [SealPlan.ranges, Levels.sealPlan, Levels.ranges, List.map_eq_nil_iff]

/-- Where two are of one level, the live set has first the one whose fence begins first. -/
lemma Seg.le_of_rank {s t : Seg} (hlevel : s.isPart = t.isPart) (hle : s.rank ≤ t.rank) :
    s.fence.1 ≤ t.fence.1 := by
  rw [Seg.rank, Seg.rank, Prod.Lex.toLex_le_toLex, Seg.level, Seg.level, hlevel] at hle
  rcases hle with hlt | ⟨-, hle⟩
  · exact absurd hlt (lt_irrefl _)
  · rw [Prod.Lex.toLex_le_toLex] at hle
    rcases hle with hlt | ⟨heq, -⟩
    · exact le_of_lt hlt
    · exact le_of_eq heq

/-- **The ranges of a settled set tile the keys**, in the order the set is sorted in. -/
lemma spans_ranges {queue : List Seg} (hs : Settled h.live queue) (hnodup : h.live.Nodup)
    (hsorted : h.live.Pairwise (fun s t => s.rank ≤ t.rank)) : Spans [] none h.ranges := by
  rw [Levels.ranges]
  split_ifs with hnil
  · rfl
  · have hex : ∃ p ∈ h.live, p.isPart = true := by
      obtain ⟨p, hp⟩ := List.exists_mem_of_ne_nil _ hnil
      exact ⟨p, mem_parts.mp hp⟩
    refine spans_of_exact ?_ (fun f hf => ?_) ?_ (fun f _ => nil_le _) (fun k _ => ?_)
    · rw [List.pairwise_map]
      refine (hsorted.filter _).imp_of_mem (fun hp hq hle => Seg.le_of_rank ?_ hle)
      rw [(mem_parts.mp hp).2, (mem_parts.mp hq).2]
    · obtain ⟨p, hp, rfl⟩ := List.mem_map.mp hf
      exact (hs.fits p (List.mem_append_left _ (mem_parts.mp hp).1)).wide
    · rw [List.pairwise_map]
      refine (hnodup.filter _).pairwise_of_forall_ne (fun p hp q hq hne => ?_)
      obtain ⟨hpl, hpp⟩ := mem_parts.mp hp
      obtain ⟨hql, hqp⟩ := mem_parts.mp hq
      exact hs.apart p hpl q hql hpp hqp hne
    · obtain ⟨p, hp, hpart, hk⟩ := hs.cover hex k
      exact ⟨p.fence, List.mem_map_of_mem (mem_parts.mpr ⟨hp, hpart⟩), hk⟩

end Ranges

/-! ## The pieces of a table -/

section Pieces

variable {plan : SealPlan} {len : ℕ} {table : List WalRecord} {fs : List Fence}

lemma deltaIn_append {as bs : List Entry} (hnodup : ((as ++ bs).map Entry.key).Nodup) (k : Bytes) :
    deltaIn (as ++ bs) k = deltaIn as k * deltaIn bs k := by
  rw [List.map_append, List.nodup_append] at hnodup
  obtain ⟨-, -, hdis⟩ := hnodup
  rw [deltaIn, deltaIn, List.find?_append]
  cases ha : as.find? (fun e => e.key = k) with
  | none => rw [Option.none_or, one_mul, deltaIn]
  | some a =>
      have hak : a.key = k := by simpa using List.find?_some ha
      have hnone : bs.find? (fun e => e.key = k) = none := by
        rw [List.find?_eq_none]
        intro b hb hbk
        refine hdis a.key (List.mem_map_of_mem (List.mem_of_find?_eq_some ha)) b.key (List.mem_map_of_mem hb) ?_
        rw [hak, of_decide_eq_true hbk]
      rw [Option.some_or, deltaIn, hnone, mul_one]

lemma prod_deltaIn (ess : List (List Entry)) (hnodup : (ess.flatten.map Entry.key).Nodup)
    (k : Bytes) : (ess.map (deltaIn · k)).prod = deltaIn ess.flatten k := by
  induction ess with
  | nil => rfl
  | cons as ess ih =>
      have hrest : (ess.flatten.map Entry.key).Nodup := by
        rw [List.flatten_cons, List.map_append] at hnodup
        exact (List.nodup_append.mp hnodup).2.1
      rw [List.flatten_cons, deltaIn_append (by rwa [List.flatten_cons] at hnodup), List.map_cons,
        List.prod_cons, ih hrest]

/-- The pieces of a table, from one range on, are of ranges one behind the other. -/
lemma pairwise_piecesOf (ri : ℕ) (es : List SealRec) :
    (piecesOf ri fs es).Pairwise (fun p q => p.1 < q.1) ∧ ∀ p ∈ piecesOf ri fs es, ri ≤ p.1 := by
  induction fs generalizing ri es with
  | nil => exact ⟨List.Pairwise.nil, fun p hp => absurd hp List.not_mem_nil⟩
  | cons f fs ih =>
      obtain ⟨hpair, hle⟩ := ih (ri + 1) (es.dropWhile (belowEnd f.2))
      rw [piecesOf]
      split_ifs with hempty
      · exact ⟨hpair, fun p hp => (Nat.le_succ ri).trans (hle p hp)⟩
      · refine ⟨List.pairwise_cons.mpr ⟨fun p hp => hle p hp, hpair⟩, fun p hp => ?_⟩
        rcases List.mem_cons.mp hp with rfl | hp
        · exact le_refl _
        · exact (Nat.le_succ ri).trans (hle p hp)

lemma map_sealRecs (plan : SealPlan) (table : List WalRecord) : (sealRecs plan table).map Prod.fst
    = sealedEntries table := by
  rw [sealRecs, List.map_map, sealedEntries]
  refine List.map_congr_left (fun k _ => ?_)
  have hmasks : decide (WalRecord.delete k ∈ table) = (recordsDelta table k).masks := by
    rw [Bool.eq_iff_iff, decide_eq_true_eq, masks_recordsDelta]
  rw [Function.comp_apply, sealRec, ← vals_recordsDelta, hmasks]

lemma keys_sealRecs : (sealRecs plan table).map (fun r => r.1.key) = slotsInKeyOrder table := by
  rw [sealRecs, List.map_map]
  exact List.map_id _

/-- What a name says of a sealed piece. -/
lemma said_sealName (plan : SealPlan) (len id : ℕ) (f : Fence) (tombs : Bool)
    (entries : List Entry) :
    let s : Seg := ⟨sealName plan id f tombs len, entries⟩
    s.fence = f ∧ s.id = id ∧ s.seq = plan.endSeq ∧
      (s.isPart = true → plan.firstPartition = true) := by
  simp only [Seg.fence, Seg.id, Seg.seq, Seg.isPart, Seg.said, sealName]
  split_ifs with hwhole hfirst
  · exact ⟨hwhole.2.symm, rfl, rfl, fun _ => hfirst.1⟩
  · exact ⟨hwhole.2.symm, rfl, rfl, fun hk => absurd hk (by simp)⟩
  · exact ⟨rfl, rfl, rfl, fun hk => absurd hk (by simp)⟩

/-- **What a seal writes of a table**: segments that fit, each of a range, with the ids behind the
first and the sequence asked for, in order of their ranges. -/
lemma mem_sealPieces (htiles : Tiles [] plan.ranges) (hwide : ∀ f ∈ plan.ranges, Wide f) {s : Seg}
    (hs : s ∈ Levels.sealPieces plan len table) :
    s.Fits ∧ s.fence ∈ plan.ranges ∧ s.seq = plan.endSeq ∧
      (s.isPart = true → plan.firstPartition = true) ∧
      plan.firstId ≤ s.id ∧ plan.ranges[s.id - plan.firstId]? = some s.fence := by
  obtain ⟨p, hp, rfl⟩ := List.mem_map.mp hs
  have hsorted : ((sealRecs plan table).map (fun r => r.1.key)).Pairwise (· < ·) := by
    rw [keys_sealRecs]
    exact pairwise_slotsInKeyOrder table
  obtain ⟨hflat, hall⟩ := piecesOf_spec htiles hsorted (fun r _ => nil_le _) 0
  obtain ⟨-, hget, hne, hin⟩ := hall p hp
  obtain ⟨hfence, hid, hseq, hpart⟩ := said_sealName plan len (plan.firstId + p.1) p.2.1
    (p.2.2.any (fun r => r.1.tomb)) (p.2.2.map Prod.fst)
  have hmem : p.2.1 ∈ plan.ranges := List.mem_of_getElem? hget
  have hsub : p.2.2.Sublist (sealRecs plan table) := by
    rw [← hflat, List.flatMap_def]
    exact List.sublist_flatten_of_mem (List.mem_map_of_mem hp)
  refine ⟨⟨by rw [hfence]; exact hwide _ hmem, ?_, ?_⟩,
    by rwa [hfence], hseq, hpart, by rw [hid]; exact Nat.le_add_right _ _, ?_⟩
  · simp only [Seg.keys, List.map_map]
    exact hsorted.sublist (hsub.map _)
  · intro k hk
    simp only [Seg.keys, List.map_map, List.mem_map] at hk
    obtain ⟨r, hr, rfl⟩ := hk
    rw [hfence]
    exact hin r hr
  · rw [hid, hfence, Nat.add_sub_cancel_left]
    simpa using hget

lemma pairwise_sealPieces :
    (Levels.sealPieces plan len table).Pairwise (fun s t => s.id < t.id) := by
  rw [Levels.sealPieces, List.pairwise_map]
  refine (pairwise_piecesOf 0 _).1.imp (fun {p q} hlt => ?_)
  rw [(said_sealName _ _ _ _ _ _).2.1, (said_sealName _ _ _ _ _ _).2.1]
  exact Nat.add_lt_add_left hlt _

/-- **The pieces of a table together** say of every key what its records do. -/
lemma prod_sealPieces (htiles : Tiles [] plan.ranges) (k : Bytes) :
    ((Levels.sealPieces plan len table).map (·.delta k)).prod = recordsDelta table k := by
  have hsorted : ((sealRecs plan table).map (fun r => r.1.key)).Pairwise (· < ·) := by
    rw [keys_sealRecs]
    exact pairwise_slotsInKeyOrder table
  obtain ⟨hflat, -⟩ := piecesOf_spec htiles hsorted (fun r _ => nil_le _) 0
  have hentries :
      (((piecesOf 0 plan.ranges (sealRecs plan table)).map (fun p => p.2.2.map Prod.fst))).flatten
      = sealedEntries table := by
    rw [← map_sealRecs plan, ← congrArg (List.map Prod.fst) hflat, List.map_flatMap,
      List.flatMap_def]
  have hmap : (Levels.sealPieces plan len table).map (·.delta k)
      = ((piecesOf 0 plan.ranges (sealRecs plan table)).map (fun p => p.2.2.map Prod.fst)).map
      (deltaIn · k) := by
    rw [Levels.sealPieces, List.map_map, List.map_map]
    rfl
  rw [hmap, prod_deltaIn, hentries, deltaIn_sealedEntries]
  rw [hentries, ← map_sealRecs plan, List.map_map]
  exact hsorted.imp (fun hlt => ne_of_lt hlt)

end Pieces

/-! ## Freezing and landing -/

namespace Settled

variable {live queue pieces rest : List Seg} {k : Bytes}

/-- Of two that wait, one at most is a partition, and one is older. -/
lemma lined_or (h : Settled live queue) {s t : Seg} (hs : s ∈ queue) (ht : t ∈ queue)
    (hne : s ≠ t) : (s.isPart = false ∨ t.isPart = false) ∧ (s.Older t ∨ t.Older s) := by
  have hsymm :
    Std.Symm (fun s t : Seg => (s.isPart = false ∨ t.isPart = false) ∧ (s.Older t ∨ t.Older s)) :=
    ⟨fun _ _ hst => ⟨hst.1.symm, hst.2.symm⟩⟩
  have hpair :
    queue.Pairwise (fun s t => (s.isPart = false ∨ t.isPart = false) ∧ (s.Older t ∨ t.Older s)) :=
    h.lined.imp (fun hst => ⟨Or.inr hst.2, Or.inl hst.1⟩)
  exact hpair.forall hs ht hne

/-- **A freeze keeps the set settled**: pieces of the ranges as they stand, newer than all there is,
each of its own range; the first partition only where there is nothing. -/
lemma freeze (h : Settled live queue) (hfits : ∀ s ∈ pieces, s.Fits)
    (hrange : ∀ s ∈ pieces, IsRange live s.fence)
    (hseq : ∀ s ∈ pieces, ∀ t ∈ live ++ queue, t.isPart = false ∨ t ∈ queue → t.seq < s.seq)
    (hapart : pieces.Pairwise (fun s t => RangesApart s.fence t.fence))
    (hpart : ∀ s ∈ pieces, s.isPart = true → live = [] ∧ queue = []) :
    Settled live (queue ++ pieces) := by
  have holder : ∀ t ∈ live ++ queue, t.isPart = false ∨ t ∈ queue → ∀ s ∈ pieces, t.Older s := by
    intro t ht hor s hs hmeet
    rcases h.coarse t ht hor s.fence (hrange s hs) with hap | hin
    · exact absurd hap hmeet
    · exact ⟨hin, fun _ => hseq s hs t ht hor⟩
  have hcases : ∀ s, s ∈ live ++ (queue ++ pieces) → s ∈ live ++ queue ∨ s ∈ pieces := by
    intro s hs
    rwa [← List.append_assoc, List.mem_append] at hs
  refine ⟨fun s hs => ?_, h.apart, h.cover, fun s hs hor f hf => ?_, h.ordered, fun s hs hsp t ht =>
    ?_, ?_, fun s hs hsp => ?_⟩
  · exact (hcases s hs).elim (h.fits s) (hfits s)
  · by_cases hnew : s ∈ pieces
    · rcases h.range_apart (hrange s hnew) hf with heq | hap
      · exact Or.inr (heq ▸ Within.refl _)
      · exact Or.inl hap
    · refine h.coarse s ((hcases s hs).resolve_right hnew) (hor.imp_right (fun hq => ?_)) f hf
      exact (List.mem_append.mp hq).resolve_right hnew
  · rcases List.mem_append.mp ht with ht | ht
    · exact h.behind s hs hsp t ht
    · exact holder s (List.mem_append_left _ hs) (Or.inl hsp) t ht
  · refine List.pairwise_append.mpr
      ⟨h.lined, hapart.imp_of_mem (fun {s t} hs ht hap => ⟨fun hmeet => absurd hap hmeet, ?_⟩),
      fun s hs t ht => ⟨holder s (List.mem_append_right _ hs) (Or.inr hs) t ht, ?_⟩⟩
    · rw [← Bool.not_eq_true]
      intro htp
      -- the first partition is of all the keys, and then nothing is beside it
      obtain ⟨hnil, -⟩ := hpart t ht htp
      have heq : s.fence = t.fence := by
        rcases h.range_apart (hrange s hs) (hrange t ht) with heq | -
        · exact heq
        · have hfull : ∀ f, IsRange live f → f = ([], none) := by
            rintro f (⟨p, hp, -⟩ | ⟨-, hf⟩)
            · rw [hnil] at hp
              exact absurd hp List.not_mem_nil
            · exact hf
          rw [hfull _ (hrange s hs), hfull _ (hrange t ht)]
      rw [heq] at hap
      exact (hfits t ht).wide.not_apart_self hap
    · rw [← Bool.not_eq_true]
      intro htp
      rw [(hpart t ht htp).2] at hs
      exact absurd hs List.not_mem_nil
  · rcases List.mem_append.mp hs with hs | hs
    · exact h.first s hs hsp
    · exact (hpart s hs hsp).1

/-- Where the first partition waits, whatever waits is of all the keys. -/
lemma full_of_first (h : Settled live queue) {s t : Seg} (hs : s ∈ queue) (hsp : s.isPart = true)
    (ht : t ∈ queue) (k : Bytes) : t.fence.Holds k := by
  have hnil := h.first s hs hsp
  have hrange : IsRange live ([], none) := by
    rw [hnil]
    exact Or.inr ⟨fun p hp => absurd hp List.not_mem_nil, rfl⟩
  rcases h.coarse t (List.mem_append_right _ ht) (Or.inr ht) _ hrange with hap | hin
  · exact absurd (full_holds _) (hap _ (h.fits t (List.mem_append_right _ ht)).wide.inRange)
  · exact hin k (full_holds k)

/-- The ranges as a landing leaves them: as they were, or all the keys still. -/
lemma isRange_land {f : Fence} (hf : IsRange (live ++ pieces) f) :
    IsRange live f ∨ ∃ s ∈ pieces, s.isPart = true ∧ s.fence = f := by
  rcases hf with ⟨p, hp, hpart, rfl⟩ | ⟨hnone, rfl⟩
  · rcases List.mem_append.mp hp with hp | hp
    · exact Or.inl (Or.inl ⟨p, hp, hpart, rfl⟩)
    · exact Or.inr ⟨p, hp, hpart, rfl⟩
  · exact Or.inl (Or.inr ⟨fun p hp => hnone p (List.mem_append_left _ hp), rfl⟩)

/-- **A landing keeps the set settled**: the oldest that wait go on top of the set. -/
lemma land (h : Settled live (pieces ++ rest)) : Settled (live ++ pieces) rest := by
  obtain ⟨-, hlined, hacross⟩ := List.pairwise_append.mp h.lined
  have hmem : ∀ {s}, s ∈ live ++ pieces ++ rest ↔ s ∈ live ++ (pieces ++ rest) :=
    fun {s} => by rw [List.append_assoc]
  have hfirst : ∀ s ∈ pieces, s.isPart = true → live = [] :=
    fun s hs => h.first s (List.mem_append_left _ hs)
  refine ⟨fun s hs => h.fits s (hmem.mp hs), fun p hp q hq hpp hqp hne => ?_, fun hex k => ?_,
    fun s hs hor f hf => ?_,
    fun s hs t ht hsp htp hne => ?_, fun s hs hsp t ht => ?_, hlined, fun s hs hsp => ?_⟩
  · rcases List.mem_append.mp hp with hp | hp
    · rcases List.mem_append.mp hq with hq | hq
      · exact h.apart p hp q hq hpp hqp hne
      · rw [hfirst q hq hqp] at hp
        exact absurd hp List.not_mem_nil
    · rcases List.mem_append.mp hq with hq | hq
      · rw [hfirst p hp hpp] at hq
        exact absurd hq List.not_mem_nil
      · rcases (h.lined_or (List.mem_append_left _ hp) (List.mem_append_left _ hq) hne).1 with hno | hno
        · exact absurd hpp (by simp [hno])
        · exact absurd hqp (by simp [hno])
  · obtain ⟨p, hp, hpart⟩ := hex
    rcases List.mem_append.mp hp with hp | hp
    · obtain ⟨q, hq, hqp, hk⟩ := h.cover ⟨p, hp, hpart⟩ k
      exact ⟨q, List.mem_append_left _ hq, hqp, hk⟩
    · have hpq := List.mem_append_left rest hp
      exact ⟨p, List.mem_append_right _ hp, hpart, h.full_of_first hpq hpart hpq k⟩
  · rcases isRange_land hf with hf | ⟨p, hp, hpart, rfl⟩
    · refine h.coarse s (hmem.mp hs) ?_ f hf
      rcases hor with hsp | hs'
      · exact Or.inl hsp
      · exact Or.inr (List.mem_append_right _ hs')
    · have hs' : s ∈ pieces ++ rest := by
        rw [hmem, hfirst p hp hpart, List.nil_append] at hs
        exact hs
      exact Or.inr (fun k _ => h.full_of_first (List.mem_append_left _ hp) hpart hs' k)
  · rcases List.mem_append.mp hs with hs | hs
    · rcases List.mem_append.mp ht with ht | ht
      · exact h.ordered s hs t ht hsp htp hne
      · exact Or.inl (h.behind s hs hsp t (List.mem_append_left _ ht))
    · rcases List.mem_append.mp ht with ht | ht
      · exact Or.inr (h.behind t ht htp s (List.mem_append_left _ hs))
      · exact (h.lined_or (List.mem_append_left _ hs) (List.mem_append_left _ ht) hne).2
  · rcases List.mem_append.mp hs with hs | hs
    · exact h.behind s hs hsp t (List.mem_append_right _ ht)
    · exact (hacross s hs t ht).1
  · rw [List.append_eq_nil_iff]
    refine ⟨h.first s (List.mem_append_right _ hs) hsp, ?_⟩
    rw [List.eq_nil_iff_forall_not_mem]
    exact fun t ht => absurd hsp (by simp [(hacross t ht s hs).2])

/-- **A landing puts a table's pieces on top** of what the set says. -/
lemma saysOf_land (h : Settled live (pieces ++ rest)) (hnodup : (live ++ pieces).Nodup) (k : Bytes)
    (hland : Settled (live ++ pieces) rest) :
    saysOf (live ++ pieces) k = saysOf live k * (pieces.map (·.delta k)).prod := by
  rw [saysOf, settle_append (hland.ranked hnodup) (fun s hs t ht hks hkt => ?_)]
  · congr 1
    refine settle_eq_prod_of_lt ?_
      (fun s hs hk => h.silent (List.mem_append_right _ (List.mem_append_left _ hs)) hk)
    refine (List.pairwise_append.mp h.lined).1.imp (fun {s t} hst k hks hkt => ?_)
    exact Seg.rank_lt_of_piece hst.1 hst.2 (Seg.reach_eq_true.mp hks) (Seg.reach_eq_true.mp hkt)
  · have htp : t.isPart = false := by
      rw [← Bool.not_eq_true]
      intro htp
      rw [h.first t (List.mem_append_left _ ht) htp] at hs
      exact absurd hs List.not_mem_nil
    cases hsp : s.isPart with
    | true => exact Seg.rank_lt_of_level hsp htp
    | false =>
        exact (h.behind s hs hsp t (List.mem_append_left _ ht)).rank_lt hsp htp
          (Seg.reach_eq_true.mp hks) (Seg.reach_eq_true.mp hkt)

end Settled

end Supdb

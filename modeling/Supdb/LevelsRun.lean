import Supdb.LevelsPromote
import Supdb.LevelsRead

/-!
# Runs of the levels

Writes, freezes, landings, merges and promotions in any order, and reads between any two of them.

* **`Levels.Ok`** – the invariant of every state reached: a settled set, sorted, with ids of their
  own for all that is live, waits or is being written, and with every merge in flight as `MergeOk`
  and `TierOk` have it.
* **`LevelsOp.Meets`** – what is asked of a run: a merge of everything only over a store without
  partitions; of a merge over given ranges, a key to write; and ids enough for the outputs.
* `Levels.step_ok` – each step keeps the invariant, and leaves each key what it had and what the
  step writes.
* **`levels_read`** – a read at any point of any run gives the values appended since the key's last
  delete.
* **`levels_tile`** – and at any point the partitions tile the keys, every key lies in its segment's
  fence, and the pieces over a partition are all that hold a key of its range.
* **`levels_in_flight`** – and whatever merges are in flight, all they took is live and taken once,
  and ids are apart.
-/

namespace Supdb

open StorageLib

/-- What merges in flight are writing. -/
def Levels.flying (h : Levels) : List Seg :=
  h.merging.flatMap MergeJob.outputs ++ h.tiering.toList.flatMap TierJob.outputs

/-- Every segment there is or will be. -/
def Levels.all (h : Levels) : List Seg := h.live ++ (h.queue ++ h.flying)

/-- **The invariant**: the live set is settled, names are apart, a job's inputs are live. -/
structure Levels.Ok (h : Levels) : Prop where
  settled : Settled h.live h.queue
  sorted : h.live.Pairwise (fun s t => s.rank ≤ t.rank)
  ids : (h.all.map Seg.id).Nodup
  fresh : ∀ s ∈ h.all, s.id < h.nextSeg
  /-- What is written since the last freeze is behind every piece. -/
  seqs : ∀ s ∈ h.live ++ h.queue, s.isPart = false ∨ s ∈ h.queue → s.seq + h.mem.length ≤ h.seq
  /-- The pieces of a table that waits say what it says. -/
  tables : ∀ j ∈ h.sealing, ∀ k, (j.pieces.map (·.delta k)).prod = recordsDelta j.table k
  merges : ∀ m ∈ h.merging, MergeOk h.live m
  disjoint : h.merging.Pairwise (fun a b => ∀ s ∈ a.inputs, s ∉ b.inputs)
  /-- A merge of everything runs alone, over no partition. -/
  alone : ∀ m ∈ h.merging, m.fences = none → h.merging = [m] ∧ ∀ s ∈ h.live, s.isPart = false
  tier : ∀ t ∈ h.tiering, TierOk h.live t ∧ ∀ m ∈ h.merging, ∀ s ∈ t.inputs, s ∉ m.inputs

/-- What a run asks of a step. -/
def LevelsOp.Meets (h : Levels) : LevelsOp → Prop
  | .startCompact given _ parts maxKeys =>
      (given = none → h.parts = []) ∧
        ((h.mergeJob given parts maxKeys).inputs ≠ [] → given ≠ none →
          ∃ s ∈ (h.mergeJob given parts maxKeys).inputs, s.keys ≠ []) ∧
        (h.mergeJob given parts maxKeys).outputs.length ≤ h.reserved given parts maxKeys
  | _ => True

/-- A run of which every step meets what is asked. -/
def Levels.MeetsAll : Levels → List LevelsOp → Prop
  | _, [] => True
  | h, op :: ops => op.Meets h ∧ (h.step op).MeetsAll ops

section Steps

variable {h : Levels} {live live' : List Seg} {m : MergeJob} {t : TierJob} {k : Bytes}

lemma MergeOk.congr (hm : MergeOk live m) (hsame : ∀ s, s ∈ live ↔ s ∈ live') :
    MergeOk live' m where
  sub s hs := (hsame s).mp (hm.sub s hs)
  nodup := hm.nodup
  ne := hm.ne
  ranges f hf := (isRange_congr hsame).mp (hm.ranges f hf)
  parts p hp := hm.parts p ((hsame p).mpr hp)
  part := hm.part
  within s hs f hf := hm.within s hs f ((isRange_congr hsame).mpr hf)
  older s hs hsp u hu := hm.older s hs hsp u ((hsame u).mpr hu)
  outs := hm.outs
  apart := hm.apart
  cover := hm.cover
  merged := hm.merged

lemma TierOk.congr (ht : TierOk live t) (hsame : ∀ s, s ∈ live ↔ s ∈ live') : TierOk live' t where
  sub s hs := ⟨(hsame s).mp (ht.sub s hs).1, (ht.sub s hs).2⟩
  nodup := ht.nodup
  ne := ht.ne
  same := ht.same
  one := ht.one
  outs := ht.outs
  between s hs := ht.between s ((hsame s).mpr hs)
  merged := ht.merged

namespace Levels.Ok

variable (hok : h.Ok)
include hok

lemma nodup_all : h.all.Nodup := hok.ids.of_map _

lemma nodup : h.live.Nodup := hok.nodup_all.sublist (List.sublist_append_left _ _)

lemma idsApart : IdsApart h.live := by
  intro s hs t ht heq
  exact List.inj_on_of_nodup_map hok.ids (List.mem_append_left _ hs) (List.mem_append_left _ ht) heq

/-- What is being written is not live. -/
lemma not_live {o : Seg} (ho : o ∈ h.flying) : o ∉ h.live := by
  intro hol
  exact (List.nodup_append.mp hok.nodup_all).2.2 o hol o (List.mem_append_right _ ho) rfl

end Levels.Ok

/-- What the live set says, sorted or not. -/
lemma saysOf_publish {queue : List Seg} (hs : Settled live queue) (hnodup : live.Nodup) :
    saysOf (Levels.publish live) k = saysOf live k :=
  (settle_perm (hs.ranked hnodup) perm_publish.symm).symm

/-! ## Tables -/

namespace Levels.Ok

/-- A write. -/
lemma write (hok : h.Ok) (r : WalRecord) : (h.step (.write r)).Ok where
  settled := hok.settled
  sorted := hok.sorted
  ids := hok.ids
  fresh := hok.fresh
  seqs s hs hor := by
    have hle := hok.seqs s hs hor
    rw [show (h.step (.write r)).mem = h.mem ++ [r] from rfl, show (h.step (.write r)).seq
      = h.seq + 1 from rfl, List.length_append, List.length_singleton]
    omega
  tables := hok.tables
  merges := hok.merges
  disjoint := hok.disjoint
  alone := hok.alone
  tier := hok.tier

/-- A commit. -/
lemma commit (hok : h.Ok) : (h.step .commit).Ok where
  settled := hok.settled
  sorted := hok.sorted
  ids := hok.ids
  fresh := hok.fresh
  seqs s hs hor := (hok.seqs s hs hor).trans (Nat.le_succ _)
  tables := hok.tables
  merges := hok.merges
  disjoint := hok.disjoint
  alone := hok.alone
  tier := hok.tier

/-- Ranges one behind the other are each at one place. -/
lemma apart_of_getElem? {fs : List Fence} (hap : fs.Pairwise RangesApart) {i j : ℕ} {f g : Fence}
    (hi : fs[i]? = some f) (hj : fs[j]? = some g) (hlt : i < j) : RangesApart f g := by
  obtain ⟨hil, rfl⟩ := List.getElem?_eq_some_iff.mp hi
  obtain ⟨hjl, rfl⟩ := List.getElem?_eq_some_iff.mp hj
  exact List.pairwise_iff_getElem.mp hap i j hil hjl hlt

/-- **A freeze.** -/
lemma freeze (hok : h.Ok) (putOne shape : Bool) (limit len : ℕ) :
    (h.freeze putOne shape limit len).Ok ∧ ∀ k, (h.freeze putOne shape limit len).leaves k
    = h.leaves k := by
  rw [Levels.freeze]
  split_ifs with hmem
  · exact ⟨hok, fun k => rfl⟩
  set plan := h.sealPlan putOne shape limit with hplan
  set pieces := Levels.sealPieces plan len h.mem with hpieces
  have hranges : plan.ranges = h.ranges := ranges_sealPlan putOne shape limit
  have hspans : Spans [] none h.ranges := spans_ranges hok.settled hok.nodup hok.sorted
  have hwide : ∀ f ∈ h.ranges, Wide f := fun f hf => hok.settled.wide_range (mem_ranges.mp hf)
  have htiles : Tiles [] plan.ranges := hranges ▸ tiles_iff_spans.mpr hspans
  have hspec : ∀ s ∈ pieces, s.Fits ∧ s.fence ∈ h.ranges ∧ s.seq = h.seq ∧
      (s.isPart = true → plan.firstPartition = true) ∧
      h.nextSeg ≤ s.id ∧ h.ranges[s.id - h.nextSeg]? = some s.fence := by
    intro s hs
    have hsealed := mem_sealPieces htiles (by rwa [hranges]) hs
    rwa [hranges] at hsealed
  have hqueue : ∀ l : List FrozenTable, (l ++ [(⟨h.mem, pieces⟩ : FrozenTable)]).flatMap
      FrozenTable.pieces = l.flatMap FrozenTable.pieces ++ pieces := by
    intro l
    rw [List.flatMap_append, List.flatMap_singleton]
  have hlater : h.mem.length ≠ 0 := fun h0 => hmem (List.length_eq_zero_iff.mp h0)
  have hsettled : Settled h.live (h.queue ++ pieces) := by
    refine hok.settled.freeze (fun s hs => (hspec s hs).1)
      (fun s hs => mem_ranges.mp (hspec s hs).2.1) (fun s hs t ht hor => ?_) ?_
      (fun s hs hpart => ?_)
    · have hle := hok.seqs t ht hor
      rw [(hspec s hs).2.2.1]
      omega
    · refine pairwise_sealPieces.imp_of_mem (fun {s t} hs ht hlt => ?_)
      have hsle := (hspec s hs).2.2.2.2.1
      exact apart_of_getElem? (hspans.apart hwide).1 (hspec s hs).2.2.2.2.2 (hspec t ht).2.2.2.2.2 (by omega)
    · have hfirst := (hspec s hs).2.2.2.1 hpart
      simp only [hplan, Levels.sealPlan, Bool.and_eq_true, List.isEmpty_iff] at hfirst
      exact ⟨hfirst.1.2, by rw [Levels.queue, hfirst.2]; rfl⟩
  have hlen : h.ranges.length = max h.parts.length 1 := by
    rw [Levels.ranges]
    split_ifs with hnil
    · rw [hnil]
      rfl
    · have hpos := List.length_pos_of_ne_nil hnil
      rw [List.length_map]
      omega
  have hbound : ∀ s ∈ pieces, s.id < h.nextSeg + max h.parts.length 1 := by
    intro s hs
    have hlt := (List.getElem?_eq_some_iff.mp (hspec s hs).2.2.2.2.2).1
    omega
  have hall : ∀ s, s ∈ h.live ++ ((h.queue ++ pieces) ++ h.flying) ↔ s ∈ h.all ∨ s ∈ pieces := by
    intro s
    simp only [Levels.all, List.mem_append]
    tauto
  refine ⟨{
    settled := ?_
    sorted := hok.sorted
    ids := ?_
    fresh := fun s hs => ?_
    seqs := fun s hs hor => ?_
    tables := fun j hj k => ?_
    merges := hok.merges
    disjoint := hok.disjoint
    alone := hok.alone
    tier := hok.tier }, fun k => ?_⟩
  · rw [Levels.queue, hqueue]
    exact hsettled
  · have hperm : (h.live ++ ((h.queue ++ pieces) ++ h.flying)).Perm (h.all ++ pieces) := by
      rw [Levels.all, List.append_assoc h.queue, List.append_assoc, List.append_assoc]
      exact (List.perm_append_comm.append_left _).append_left _
    rw [Levels.all, Levels.queue, hqueue]
    refine (hperm.map Seg.id).nodup_iff.mpr ?_
    rw [List.map_append, List.nodup_append]
    refine ⟨hok.ids, ?_, fun a ha b hb heq => ?_⟩
    · rw [List.Nodup, List.pairwise_map]
      exact pairwise_sealPieces.imp (fun hlt => ne_of_lt hlt)
    · obtain ⟨s, hs, rfl⟩ := List.mem_map.mp ha
      obtain ⟨p, hp, rfl⟩ := List.mem_map.mp hb
      have hlt := hok.fresh s hs
      have hle := (hspec p hp).2.2.2.2.1
      omega
  · rw [Levels.all, Levels.queue, hqueue] at hs
    rcases (hall s).mp hs with hs | hs
    · exact (hok.fresh s hs).trans_le (Nat.le_add_right _ _)
    · exact hbound s hs
  · rw [List.length_nil, Nat.add_zero]
    rw [Levels.queue, hqueue] at hs hor
    by_cases hnew : s ∈ pieces
    · exact (hspec s hnew).2.2.1.le
    · have hold : s ∈ h.live ++ h.queue := by
        rw [← List.append_assoc, List.mem_append] at hs
        exact hs.resolve_right hnew
      have hle := hok.seqs s hold (hor.imp_right (fun hq => (List.mem_append.mp hq).resolve_right hnew))
      exact (Nat.le_add_right _ _).trans hle
  · rcases List.mem_append.mp hj with hj | hj
    · exact hok.tables j hj k
    · rw [List.mem_singleton.mp hj]
      exact prod_sealPieces htiles k
  · simp only [Levels.leaves, List.map_append, List.prod_append, List.map_singleton,
      List.prod_singleton, recordsDelta_nil, mul_one, mul_assoc]

/-- **A landing.** -/
lemma land (hok : h.Ok) : h.land.Ok ∧ ∀ k, h.land.leaves k = h.leaves k := by
  rw [Levels.land]
  cases hseal : h.sealing with
  | nil => exact ⟨hok, fun k => rfl⟩
  | cons j rest =>
      have hqueue : h.queue = j.pieces ++ rest.flatMap FrozenTable.pieces := by
        rw [Levels.queue, hseal, List.flatMap_cons]
      have hset : Settled h.live (j.pieces ++ rest.flatMap FrozenTable.pieces) := hqueue ▸ hok.settled
      have hland := hset.land
      have hsame : ∀ s, s ∈ h.live ++ j.pieces ↔ s ∈ Levels.publish (h.live ++ j.pieces) := fun s => mem_publish.symm
      have hperm :
        (Levels.publish (h.live ++ j.pieces) ++ (rest.flatMap FrozenTable.pieces ++ h.flying)).Perm
        h.all := by
        rw [Levels.all, hqueue, List.append_assoc, ← List.append_assoc h.live]
        exact perm_publish.append_right _
      have hnodup : (h.live ++ j.pieces).Nodup := by
        have hall := hok.nodup_all
        rw [Levels.all, hqueue, List.append_assoc, ← List.append_assoc] at hall
        exact hall.sublist (List.sublist_append_left _ _)
      refine ⟨{
        settled := hland.congr hsame
        sorted := pairwise_publish
        ids := (hperm.map Seg.id).nodup_iff.mpr hok.ids
        fresh := fun s hs => hok.fresh s (hperm.mem_iff.mp hs)
        seqs := fun s hs hor => ?_
        tables := fun j' hj' => hok.tables j' (hseal ▸ List.mem_cons_of_mem _ hj')
        merges := fun m hm => ((hok.merges m hm).land hset).congr hsame
        disjoint := hok.disjoint
        alone := fun m hm hnone => ⟨(hok.alone m hm hnone).1, fun s hs => ?_⟩
        tier := fun t ht => ⟨((hok.tier t ht).1.land hset).congr hsame, (hok.tier t ht).2⟩ }, fun k => ?_⟩
      · have hmem : s ∈ h.live ++ h.queue := by
          rcases List.mem_append.mp hs with hs | hs
          · rcases List.mem_append.mp ((hsame s).mpr hs) with hs | hs
            · exact List.mem_append_left _ hs
            · exact List.mem_append_right _ (hqueue ▸ List.mem_append_left _ hs)
          · exact List.mem_append_right _ (hqueue ▸ List.mem_append_right _ hs)
        exact hok.seqs s hmem (hor.imp_right (fun hq => hqueue ▸ List.mem_append_right _ hq))
      · rcases List.mem_append.mp ((hsame s).mpr hs) with hs | hs
        · exact (hok.alone m hm hnone).2 s hs
        · rw [← Bool.not_eq_true]
          intro hpart
          obtain ⟨x, hx⟩ := List.exists_mem_of_ne_nil _ (hok.merges m hm).ne
          have hxl := (hok.merges m hm).sub x hx
          rw [hset.first s (List.mem_append_left _ hs) hpart] at hxl
          exact absurd hxl List.not_mem_nil
      · rw [Levels.leaves, Levels.leaves, saysOf_publish hland hnodup, hset.saysOf_land hnodup k hland,
          hok.tables j (hseal ▸ List.mem_cons_self) k, hseal, List.map_cons, List.prod_cons]
        simp only [mul_assoc]

end Levels.Ok

/-! ## Merges -/

/-- The ids of a merge's outputs, one behind the other. -/
lemma pairwise_mergeOutputs (plan : MergePlan) (inputs : List Seg) :
    (Levels.mergeOutputs plan inputs).Pairwise (fun s t => s.id < t.id) ∧
      ∀ s ∈ Levels.mergeOutputs plan inputs,
        plan.firstId ≤ s.id ∧ s.id < plan.firstId + (Levels.mergeOutputs plan inputs).length := by
  rw [Levels.mergeOutputs]
  split_ifs with hkeys
  · exact ⟨List.Pairwise.nil, fun s hs => absurd hs List.not_mem_nil⟩
  · set ss := shares plan.fences plan.parts plan.maxKeys (allKeys (inputs.map Seg.input)) with hss
    have hids : ((compactParts plan (inputs.map Seg.input)).map
        (fun p => (⟨.piece p.1, partEntries (inputs.map Seg.input) p.2⟩ : Seg))).map Seg.id
          = (List.range ss.length).map (fun i => plan.firstId + i) := by
      rw [List.map_map, compactParts, partsFrom, List.map_map, ← hss,
        List.range_eq_range', ← List.zipIdx_map_snd 0 ss, List.map_map]
      rfl
    have hlen : ((compactParts plan (inputs.map Seg.input)).map
        (fun p => (⟨.piece p.1, partEntries (inputs.map Seg.input) p.2⟩ : Seg))).length = ss.length := by
      rw [← List.length_map (f := Seg.id), hids, List.length_map, List.length_range]
    refine ⟨?_, fun s hs => ?_⟩
    · rw [← List.pairwise_map (f := Seg.id), hids, List.pairwise_map]
      exact List.pairwise_lt_range.imp (fun hlt => Nat.add_lt_add_left hlt _)
    · have hid := List.mem_map_of_mem (f := Seg.id) hs
      rw [hids] at hid
      obtain ⟨i, hi, heq⟩ := List.mem_map.mp hid
      rw [hlen, ← heq]
      exact ⟨Nat.le_add_right _ _, Nat.add_lt_add_left (List.mem_range.mp hi) _⟩

namespace Levels.Ok

/-- New segments, with ids from the next one on. -/
lemma ids_append (hok : h.Ok) {o l : List Seg} (hl : l.Perm (h.all ++ o)) {n : ℕ}
    (hpair : o.Pairwise (fun s t => s.id < t.id))
    (hnew : ∀ s ∈ o, h.nextSeg ≤ s.id ∧ s.id < h.nextSeg + n) :
    (l.map Seg.id).Nodup ∧ ∀ s ∈ l, s.id < h.nextSeg + n := by
  refine ⟨(hl.map Seg.id).nodup_iff.mpr ?_, fun s hs => ?_⟩
  · rw [List.map_append, List.nodup_append]
    refine ⟨hok.ids, ?_, fun a ha b hb heq => ?_⟩
    · rw [List.Nodup, List.pairwise_map]
      exact hpair.imp (fun hlt => ne_of_lt hlt)
    · obtain ⟨s, hs, rfl⟩ := List.mem_map.mp ha
      obtain ⟨p, hp, rfl⟩ := List.mem_map.mp hb
      have hlt := hok.fresh s hs
      have hle := (hnew p hp).1
      omega
  · rcases List.mem_append.mp (hl.mem_iff.mp hs) with hs | hs
    · exact (hok.fresh s hs).trans_le (Nat.le_add_right _ _)
    · exact (hnew s hs).2

/-- Segments that were there, some of them gone. -/
lemma ids_sub (hok : h.Ok) {l g : List Seg} (hl : (l ++ g).Perm h.all) :
    (l.map Seg.id).Nodup ∧ ∀ s ∈ l, s.id < h.nextSeg := by
  have hall := (hl.map Seg.id).nodup_iff.mpr hok.ids
  rw [List.map_append] at hall
  exact ⟨hall.sublist (List.sublist_append_left _ _),
    fun s hs => hok.fresh s (hl.mem_iff.mp (List.mem_append_left _ hs))⟩

/-- **A merge started.** -/
lemma startCompact (hok : h.Ok) (given : Option (List Fence)) (room parts maxKeys : ℕ)
    (hmeets : (LevelsOp.startCompact given room parts maxKeys).Meets h) :
      (h.startCompact given room parts maxKeys).Ok ∧
      ∀ k, (h.startCompact given room parts maxKeys).leaves k = h.leaves k := by
  obtain ⟨hnone, hkeys, hroom⟩ := hmeets
  simp only [Levels.startCompact]
  split_ifs with htier hbusy hne hmeet
  · exact ⟨hok, fun k => rfl⟩
  · exact ⟨hok, fun k => rfl⟩
  · exact ⟨hok, fun k => rfl⟩
  · exact ⟨hok, fun k => rfl⟩
  set m := h.mergeJob given parts maxKeys with hm
  have htier' : h.tiering = none := by simpa using htier
  have hmok : MergeOk h.live m := by
    cases given with
    | none => exact mergeJob_whole hok.settled hok.nodup hok.sorted hne (hnone rfl)
    | some gs => exact mergeJob_ranges hok.settled hok.nodup hok.sorted gs (hkeys hne (Option.some_ne_none _))
  have hfences : m.fences = given.map h.coverInputs := rfl
  -- it meets no merge in flight, and those are of ranges given
  have hdis : ∀ a ∈ h.merging, a.fences ≠ none ∧ m.fences ≠ none ∧
    ∀ s ∈ a.inputs, s ∉ m.inputs := by
    intro a ha
    have hno : mergesMeet a m = false := by
      rw [← Bool.not_eq_true]
      exact fun hyes => hmeet (List.any_eq_true.mpr ⟨a, ha, hyes⟩)
    rw [Levels.mergesMeet] at hno
    cases hfa : a.fences with
    | none =>
        rw [hfa] at hno
        exact absurd hno (by simp)
    | some fs =>
        cases hfm : m.fences with
        | none =>
            rw [hfa, hfm] at hno
            exact absurd hno (by simp)
        | some gs =>
            rw [hfa, hfm] at hno
            dsimp only at hno
            rw [Bool.or_eq_false_iff, List.any_eq_false] at hno
            refine ⟨Option.some_ne_none _, Option.some_ne_none _, fun s hs hsm => ?_⟩
            exact hno.1 s hsm (decide_eq_true (List.mem_map_of_mem hs))
  have hids := pairwise_mergeOutputs (h.mergePlan (given.map h.coverInputs) parts maxKeys)
    (h.mergeInputs (given.map h.coverInputs))
  have hflying : ({ h with merging := h.merging ++ [m], nextSeg := h.nextSeg + h.reserved given parts maxKeys } : Levels).flying
      = h.flying ++ m.outputs := by
    simp only [Levels.flying, htier', Option.toList_none, List.flatMap_nil, List.append_nil,
      List.flatMap_append, List.flatMap_singleton]
  have hnew := hok.ids_append (l := h.live ++ (h.queue ++ (h.flying ++ m.outputs))) (o := m.outputs)
    (n := h.reserved given parts maxKeys) ?_ hids.1 (fun s hs => ?_)
  · refine ⟨{
      settled := hok.settled
      sorted := hok.sorted
      ids := ?_
      fresh := fun s hs => ?_
      seqs := hok.seqs
      tables := hok.tables
      merges := fun a ha => ?_
      disjoint := ?_
      alone := fun a ha hanone => ?_
      tier := fun t ht => ?_ }, fun k => rfl⟩
    · rw [Levels.all, hflying]
      exact hnew.1
    · rw [Levels.all, hflying] at hs
      exact hnew.2 s hs
    · rcases List.mem_append.mp ha with ha | ha
      · exact hok.merges a ha
      · rw [List.mem_singleton.mp ha]
        exact hmok
    · refine List.pairwise_append.mpr ⟨hok.disjoint, List.pairwise_singleton _ _, fun a ha b hb => ?_⟩
      rw [List.mem_singleton.mp hb]
      exact (hdis a ha).2.2
    · rcases List.mem_append.mp ha with ha | ha
      · exact absurd hanone (hdis a ha).1
      · rw [List.mem_singleton.mp ha, hfences, Option.map_eq_none_iff] at hanone
        have hidle : h.merging = [] := by
          by_contra hsome
          exact hbusy ⟨hsome, Or.inl hanone⟩
        refine ⟨?_, parts_eq_nil.mp (hnone hanone)⟩
        rw [hidle, List.mem_singleton.mp ha]
        rfl
    · rw [htier'] at ht
      exact absurd ht.symm (Option.some_ne_none _)
  · simp only [Levels.all, List.append_assoc]
    exact List.Perm.refl _
  · obtain ⟨hlow, hhigh⟩ := hids.2 s hs
    exact ⟨hlow, hhigh.trans_le (Nat.add_le_add_left hroom _)⟩

lemma mem_flying (hm : m ∈ h.merging) {o : Seg} (ho : o ∈ m.outputs) : o ∈ h.flying :=
  List.mem_append_left _ (List.mem_flatMap.mpr ⟨m, hm, ho⟩)

/-- What a landing keeps of the live set, by names, is what it did not take. -/
lemma filter_names (hok : h.Ok) {inputs : List Seg} (hsub : ∀ s ∈ inputs, s ∈ h.live) :
    h.live.filter (fun s => decide (s.name ∉ inputs.map Seg.name))
    = h.live.filter (fun s => decide (s ∉ inputs)) := by
  refine List.filter_congr (fun s hs => ?_)
  rw [decide_eq_decide, not_iff_not, List.mem_map]
  constructor
  · rintro ⟨x, hx, hname⟩
    rwa [← hok.idsApart.eq_of_name (hsub x hx) hs hname]
  · exact fun hin => ⟨s, hin, rfl⟩

/-- **A merge landed.** -/
lemma joinMerge (hok : h.Ok) (i : ℕ) :
    (h.joinMerge i).Ok ∧ ∀ k (d : Delta Bytes), ((h.joinMerge i).leaves k * d).vals
    = (h.leaves k * d).vals := by
  rw [Levels.joinMerge]
  cases hi : h.merging[i]? with
  | none => exact ⟨hok, fun k d => rfl⟩
  | some m =>
      obtain ⟨hil, rfl⟩ := List.getElem?_eq_some_iff.mp hi
      set m := h.merging[i] with hmdef
      have hm : m ∈ h.merging := List.getElem_mem hil
      have hmok := hok.merges m hm
      have hperm : h.merging.Perm (m :: h.merging.eraseIdx i) := (List.getElem_cons_eraseIdx_perm hil).symm
      have hdis : ∀ b ∈ h.merging.eraseIdx i, ∀ s ∈ m.inputs, s ∉ b.inputs := by
        have hall := (hperm.pairwise_iff (fun hab s hs hsa => hab s hsa hs)).mp hok.disjoint
        exact (List.pairwise_cons.mp hall).1
      have hrest : ∀ b ∈ h.merging.eraseIdx i, b ∈ h.merging := fun b hb => List.mem_of_mem_eraseIdx hb
      -- a merge of everything is alone
      have hgiven : ∀ b ∈ h.merging.eraseIdx i, b.fences ≠ none := by
        intro b hb hbnone
        have hone := (hok.alone b (hrest b hb) hbnone).1
        have hlen : (h.merging.eraseIdx i).length = 0 := by
          rw [List.length_eraseIdx_of_lt hil, hone, List.length_singleton]
        rw [List.length_eq_zero_iff.mp hlen] at hb
        exact absurd hb List.not_mem_nil
      have hnew : ∀ o ∈ m.outputs, o ∉ h.live := fun o ho => hok.not_live (mem_flying hm ho)
      have hjoin : Settled (m.joined h.live) h.queue := hok.settled.join hmok (fun hnone => (hok.alone m hm hnone).2)
      have hlive : m.outputs ++ h.live.filter (fun s => s.name ∉ m.inputs.map Seg.name) = m.joined h.live := by
        rw [hok.filter_names hmok.sub]
        rfl
      have hsame : ∀ s, s ∈ m.joined h.live ↔ s ∈ Levels.publish (m.joined h.live) := fun s => mem_publish.symm
      set h' : Levels := { h with merging := h.merging.eraseIdx i, live := Levels.publish (m.joined h.live) } with hh'
      have hflying : h.flying.Perm (m.outputs ++ h'.flying) := by
        rw [Levels.flying, Levels.flying, ← List.append_assoc]
        refine List.Perm.append_right _ ?_
        rw [← List.flatMap_cons]
        exact hperm.flatMap_right _
      have hids : (h'.all.map Seg.id).Nodup ∧ ∀ s ∈ h'.all, s.id < h.nextSeg := by
        have hkept :
          h.live.Perm
          (h.live.filter (fun s => decide (s ∉ m.inputs)) ++
          h.live.filter (fun s => !decide (s ∉ m.inputs))) :=
          (List.filter_append_perm _ h.live).symm
        refine hok.ids_sub (g := h.live.filter (fun s => !decide (s ∉ m.inputs))) ?_
        rw [List.perm_iff_count]
        intro a
        have h1 := hflying.count_eq a
        have h2 := hkept.count_eq a
        have h3 := (@perm_publish (m.joined h.live)).count_eq a
        rw [MergeJob.joined] at h3
        simp only [Levels.all, List.count_append, show h'.live = Levels.publish (m.joined h.live) from rfl,
          show h'.queue = h.queue from rfl] at h1 h2 h3 ⊢
        rw [MergeJob.joined] at *
        omega
      have hnodup' : (m.joined h.live).Nodup := by
        have hpub : (Levels.publish (m.joined h.live)).Nodup := (hids.1.of_map _).sublist (List.sublist_append_left _ _)
        exact perm_publish.nodup_iff.mp hpub
      dsimp only
      rw [hlive]
      refine ⟨{
        settled := hjoin.congr hsame
        sorted := pairwise_publish
        ids := hids.1
        fresh := hids.2
        seqs := fun s hs hor => ?_
        tables := hok.tables
        merges := fun b hb => ?_
        disjoint := hok.disjoint.sublist (List.eraseIdx_sublist _ _)
        alone := fun b hb hbnone => absurd hbnone (hgiven b hb)
        tier := fun t ht => ?_ }, fun k d => ?_⟩
      · refine hok.seqs s ?_ hor
        rcases List.mem_append.mp hs with hs | hs
        · rcases MergeJob.mem_joined.mp ((hsame s).mpr hs) with ho | ⟨hsl, -⟩
          · rcases hor with hsp | hsq
            · exact absurd hsp (by simp [(hmok.outs s ho).2.1])
            · exact List.mem_append_right _ hsq
          · exact List.mem_append_left _ hsl
        · exact List.mem_append_right _ hs
      · exact (hmok.join hok.settled (hok.merges b (hrest b hb)) (hgiven b hb) (hdis b hb) hnew).congr hsame
      · obtain ⟨htok, hfree⟩ := hok.tier t ht
        exact ⟨(htok.join hmok (hfree m hm)).congr hsame, fun b hb => hfree b (hrest b hb)⟩
      · obtain ⟨e, hbefore, hafter⟩ := saysOf_join hok.settled hmok hok.nodup hjoin hnodup' k
        rw [Levels.leaves, Levels.leaves, saysOf_publish hjoin hnodup', hafter, hbefore]
        simp only [mul_assoc]
        exact vals_mul_congr rfl _

/-- **A piece merge started.** -/
lemma startTier (hok : h.Ok) (f : Fence) (n : ℕ) :
    (h.startTier f n).Ok ∧ ∀ k, (h.startTier f n).leaves k = h.leaves k := by
  rw [Levels.startTier]
  split_ifs with hno
  · exact ⟨hok, fun k => rfl⟩
  obtain ⟨hn, htier, hf, hlen⟩ : n ≠ 0 ∧ h.tiering = none ∧ f ∈ h.parts.map Seg.fence ∧
    n ≤ (h.tierInputs f).length := by
    simpa only [not_or, Option.not_isSome_iff_eq_none, not_not, not_lt] using hno
  have hne : h.tierInputs f ≠ [] := List.ne_nil_of_length_pos (by omega)
  obtain ⟨htok, hfree⟩ := startTier_ok hok.settled hok.nodup hok.sorted
    (fun s hs t ht hname => hok.idsApart.eq_of_name hs ht hname) hok.merges hf hne h.nextSeg
  set t : TierJob :=
    ⟨h.tierInputs f, Levels.tierOutputs h.nextSeg h.covered f (h.tierInputs f)⟩ with ht
  have hflying : ({ h with tiering := some t, nextSeg := h.nextSeg + 1 } : Levels).flying
    = h.flying ++ t.outputs := by
    simp only [Levels.flying, htier, Option.toList_none, Option.toList_some, List.flatMap_nil,
      List.append_nil, List.flatMap_singleton]
  have hout : ∀ o ∈ t.outputs, o.id = h.nextSeg := by
    intro o ho
    simp only [ht, Levels.tierOutputs] at ho
    split_ifs at ho
    · exact absurd ho List.not_mem_nil
    · rw [List.mem_singleton.mp ho]
      rfl
  have hpair : t.outputs.Pairwise (fun s u => s.id < u.id) := by
    rcases Nat.le_one_iff_eq_zero_or_eq_one.mp htok.one with h0 | h1
    · rw [List.length_eq_zero_iff.mp h0]
      exact List.Pairwise.nil
    · obtain ⟨a, ha⟩ := List.length_eq_one_iff.mp h1
      rw [ha]
      exact List.pairwise_singleton _ _
  have hnew := hok.ids_append (l := h.live ++ (h.queue ++ (h.flying ++ t.outputs)))
    (o := t.outputs) (n := 1)
    (by simp only [Levels.all, List.append_assoc]; exact List.Perm.refl _) hpair
    (fun s hs => by rw [hout s hs]; omega)
  refine ⟨{
    settled := hok.settled
    sorted := hok.sorted
    ids := ?_
    fresh := fun s hs => ?_
    seqs := hok.seqs
    tables := hok.tables
    merges := hok.merges
    disjoint := hok.disjoint
    alone := hok.alone
    tier := fun u hu => ?_ }, fun k => rfl⟩
  · rw [Levels.all, hflying]
    exact hnew.1
  · rw [Levels.all, hflying] at hs
    exact hnew.2 s hs
  · rw [← Option.some.inj hu]
    exact ⟨htok, hfree⟩

/-- **A piece merge landed.** -/
lemma joinTier (hok : h.Ok) : h.joinTier.Ok ∧ ∀ k, h.joinTier.leaves k = h.leaves k := by
  rw [Levels.joinTier]
  cases ht : h.tiering with
  | none => exact ⟨hok, fun k => rfl⟩
  | some t =>
      obtain ⟨htok, hfree⟩ := hok.tier t ht
      have hjoin := hok.settled.joinTier htok
      have hlive : h.live.filter (fun s => s.name ∉ t.inputs.map Seg.name) ++ t.outputs = t.joined h.live := by
        rw [hok.filter_names (fun s hs => (htok.sub s hs).1)]
        rfl
      have hsame : ∀ s, s ∈ t.joined h.live ↔ s ∈ Levels.publish (t.joined h.live) := fun s => mem_publish.symm
      dsimp only
      rw [hlive]
      set h' : Levels := { h with tiering := none, live := Levels.publish (t.joined h.live) } with hh'
      have hids : (h'.all.map Seg.id).Nodup ∧ ∀ s ∈ h'.all, s.id < h.nextSeg := by
        have hkept :
          h.live.Perm
          (h.live.filter (fun s => decide (s ∉ t.inputs)) ++
          h.live.filter (fun s => !decide (s ∉ t.inputs))) :=
          (List.filter_append_perm _ h.live).symm
        have hflying : h.flying = h'.flying ++ t.outputs := by
          simp only [Levels.flying, ht, hh', Option.toList_none, Option.toList_some,
            List.flatMap_nil, List.append_nil, List.flatMap_singleton]
        refine hok.ids_sub (g := h.live.filter (fun s => !decide (s ∉ t.inputs))) ?_
        rw [List.perm_iff_count]
        intro a
        have h1 := hkept.count_eq a
        have h2 := (@perm_publish (t.joined h.live)).count_eq a
        rw [TierJob.joined] at h2
        simp only [Levels.all, List.count_append, hflying, show h'.live = Levels.publish (t.joined h.live) from rfl,
          show h'.queue = h.queue from rfl] at h1 h2 ⊢
        rw [TierJob.joined] at *
        omega
      have hnodup' : (t.joined h.live).Nodup := by
        have hpub : (Levels.publish (t.joined h.live)).Nodup := (hids.1.of_map _).sublist (List.sublist_append_left _ _)
        exact perm_publish.nodup_iff.mp hpub
      refine ⟨{
        settled := hjoin.congr hsame
        sorted := pairwise_publish
        ids := hids.1
        fresh := hids.2
        seqs := fun s hs hor => ?_
        tables := hok.tables
        merges := fun m hm => ((hok.merges m hm).joinTier htok (hfree m hm)).congr hsame
        disjoint := hok.disjoint
        alone := fun m hm hnone => ⟨(hok.alone m hm hnone).1, fun s hs => ?_⟩
        tier := fun u hu => absurd hu.symm (Option.some_ne_none _) }, fun k => ?_⟩
      · rcases List.mem_append.mp hs with hs | hs
        · rcases TierJob.mem_joined.mp ((hsame s).mpr hs) with ⟨hsl, -⟩ | ho
          · exact hok.seqs s (List.mem_append_left _ hsl) hor
          · -- it has the sequence of one that it stands in for
            obtain ⟨-, -, u, hu, -, hseq, -⟩ := htok.outs s ho
            rw [hseq]
            exact hok.seqs u (List.mem_append_left _ (htok.sub u hu).1) (Or.inl (htok.sub u hu).2)
        · exact hok.seqs s (List.mem_append_right _ hs) hor
      · rcases TierJob.mem_joined.mp ((hsame s).mpr hs) with ⟨hsl, -⟩ | ho
        · exact (hok.alone m hm hnone).2 s hsl
        · exact (htok.outs s ho).2.1
      · rw [Levels.leaves, Levels.leaves, saysOf_publish hjoin hnodup',
          saysOf_joinTier hok.settled htok hok.nodup hnodup']

end Levels.Ok

/-! ## Promotions -/

namespace Levels.Ok

lemma inFlight_eq_false {s : Seg} : h.inFlight s = false ↔
    (∀ m ∈ h.merging, s.name ∉ m.inputs.map Seg.name) ∧
    ∀ t ∈ h.tiering, s.name ∉ t.inputs.map Seg.name := by
  rw [Levels.inFlight, Bool.or_eq_false_iff, List.any_eq_false, Option.any_eq_false]
  simp only [decide_eq_true_eq, decide_eq_false_iff_not]
  rfl

/-- **A promotion** of segments that no merge in flight takes. -/
lemma applyPromotion (hok : h.Ok) {range : Fence} {renames : List (Seg × Fence)}
    (hp : Promotes h.live range renames) (hfree : ∀ r ∈ renames, h.inFlight r.1 = false) :
    (h.applyPromotion renames).Ok ∧ ∀ k, (h.applyPromotion renames).leaves k = h.leaves k := by
  have hids := hok.idsApart
  have hsame : ∀ s, s ∈ Levels.promoted h.live renames ↔
    s ∈ Levels.publish (Levels.promoted h.live renames) :=
    fun s => mem_publish.symm
  have hset := hok.settled.promote hp hids
  have hmerge : ∀ m ∈ h.merging, ∀ r ∈ renames, r.1 ∉ m.inputs :=
    fun m hm r hr hin => (inFlight_eq_false.mp (hfree r hr)).1 m hm (List.mem_map_of_mem hin)
  have htier : ∀ t ∈ h.tiering, ∀ r ∈ renames, r.1 ∉ t.inputs :=
    fun t ht r hr hin => (inFlight_eq_false.mp (hfree r hr)).2 t ht (List.mem_map_of_mem hin)
  have hmapIds : (Levels.promoted h.live renames).map Seg.id = h.live.map Seg.id := by
    rw [Levels.promoted, List.map_map]
    refine List.map_congr_left (fun s _ => ?_)
    rw [Function.comp_apply]
    cases renames.find? (fun r => r.1.name = s.name) with
    | none => rfl
    | some r => rfl
  have hallIds : ((h.applyPromotion renames).all.map Seg.id).Perm (h.all.map Seg.id) := by
    have hlive : ((Levels.publish (Levels.promoted h.live renames)).map Seg.id).Perm
      (h.live.map Seg.id) :=
      (perm_publish.map Seg.id).trans (List.Perm.of_eq hmapIds)
    simp only [Levels.all, List.map_append]
    exact hlive.append_right _
  have hnodup' : (Levels.promoted h.live renames).Nodup := by
    refine List.Nodup.of_map Seg.id ?_
    rw [hmapIds]
    exact hok.ids.sublist ((List.sublist_append_left _ _).map _)
  refine ⟨{
    settled := hset.congr hsame
    sorted := pairwise_publish
    ids := hallIds.nodup_iff.mpr hok.ids
    fresh := fun s hs => ?_
    seqs := fun s hs hor => ?_
    tables := hok.tables
    merges := fun m hm => ((hok.merges m hm).promote hok.settled hp hids (hmerge m hm)).congr hsame
    disjoint := hok.disjoint
    alone := fun m hm hnone => ?_
    tier :=
    fun t ht => ⟨((hok.tier t ht).1.promote hp hids (htier t ht)).congr hsame, (hok.tier t ht).2⟩ },
    fun k => ?_⟩
  · have hid := hallIds.mem_iff.mp (List.mem_map_of_mem (f := Seg.id) hs)
    obtain ⟨x, hx, heq⟩ := List.mem_map.mp hid
    rw [← heq]
    exact hok.fresh x hx
  · refine hok.seqs s ?_ hor
    rcases List.mem_append.mp hs with hs | hs
    · rcases (hp.mem_promoted hids).mp ((hsame s).mpr hs) with ⟨hsl, -⟩ | ⟨r, hr, rfl⟩
      · exact List.mem_append_left _ hsl
      · exact List.mem_append_right _ (hor.resolve_left (by simp))
    · exact List.mem_append_right _ hs
  · -- a merge of everything takes whatever could be promoted
    have hno := (hok.alone m hm hnone).2
    have hin := hp.not_mem_ranges hok.settled (hok.merges m hm) (hmerge m hm)
    rcases hp.isRange with ⟨p, hpl, hpart, -⟩ | ⟨-, rfl⟩
    · exact absurd hpart (by simp [hno p hpl])
    · rw [MergeJob.ranges, hnone] at hin
      exact absurd (List.mem_singleton_self _) hin
  · rw [Levels.leaves, Levels.leaves]
    have hsaid : saysOf (h.applyPromotion renames).live k = saysOf h.live k := by
      rw [← saysOf_promote hok.settled hp hids hok.nodup hnodup' k]
      exact saysOf_publish hset hnodup'
    rw [hsaid]
    rfl

/-- **A range promoted.** -/
lemma promoteRange (hok : h.Ok) (f : Fence) :
    (h.promoteRange f).Ok ∧ ∀ k, (h.promoteRange f).leaves k = h.leaves k := by
  simp only [Levels.promoteRange]
  cases hfind : h.parts.find? (fun s => s.fence = f) with
  | none => exact ⟨hok, fun k => rfl⟩
  | some p =>
      dsimp only
      split_ifs with hbusy haligned
      · exact ⟨hok, fun k => rfl⟩
      · exact ⟨hok, fun k => rfl⟩
      cases hchain : Levels.promotionChain f p.keys.getLast? (h.live.filter (Levels.candidate f)) with
      | none => exact ⟨hok, fun k => rfl⟩
      | some c =>
          obtain ⟨ps, bounds⟩ := c
          have hp := List.mem_of_find?_eq_some hfind
          have hpf : p.fence = f := by simpa using List.find?_some hfind
          obtain ⟨hpromotes, hcand⟩ :=
            promoteRange_promotes hok.settled hok.nodup hp hpf
            (Bool.eq_false_of_not_eq_true haligned) hchain
          obtain ⟨hpfree, hfree⟩ := not_or.mp hbusy
          refine hok.applyPromotion hpromotes (fun r hr => ?_)
          rcases List.mem_cons.mp hr with rfl | hr
          · exact Bool.eq_false_of_not_eq_true hpfree
          · obtain ⟨hrl, hrc⟩ := hcand r.1 (List.of_mem_zip hr).1
            rw [← Bool.not_eq_true]
            exact fun hyes => hfree (List.any_eq_true.mpr ⟨r.1, List.mem_filter.mpr ⟨hrl, hrc⟩, hyes⟩)

/-- **The first partitions promoted.** -/
lemma promoteUnpartitioned (hok : h.Ok) (fits : Bool) :
    (h.promoteUnpartitioned fits).Ok ∧ ∀ k, (h.promoteUnpartitioned fits).leaves k
    = h.leaves k := by
  rw [Levels.promoteUnpartitioned]
  split_ifs with hno hone
  · exact ⟨hok, fun k => rfl⟩
  · exact ⟨hok, fun k => rfl⟩
  cases hchain : Levels.promotionChain ([], none) none h.l0 with
  | none => exact ⟨hok, fun k => rfl⟩
  | some c =>
      obtain ⟨ps, bounds⟩ := c
      obtain ⟨hparts, hrest⟩ := not_or.mp hno
      obtain ⟨hpromotes, hmem⟩ := promoteUnpartitioned_promotes hok.settled hok.nodup (not_not.mp hparts) hchain
      refine hok.applyPromotion hpromotes (fun r hr => ?_)
      rw [← Bool.not_eq_true]
      exact fun hyes => (not_or.mp hrest).2 (List.any_eq_true.mpr ⟨r.1, hmem r.1 (List.of_mem_zip hr).1, hyes⟩)

end Levels.Ok

end Steps

/-! ## Runs -/

namespace Levels

variable {h : Levels} {ops : List LevelsOp}

/-- An empty store. -/
lemma empty_ok : empty.Ok where
  settled := {
    fits := fun _ hs => absurd hs List.not_mem_nil
    apart := fun _ hp => absurd hp List.not_mem_nil
    cover := fun ⟨_, hp, _⟩ => absurd hp List.not_mem_nil
    coarse := fun _ hs => absurd hs List.not_mem_nil
    ordered := fun _ hs => absurd hs List.not_mem_nil
    behind := fun _ hs => absurd hs List.not_mem_nil
    lined := List.Pairwise.nil
    first := fun _ hs => absurd hs List.not_mem_nil }
  sorted := List.Pairwise.nil
  ids := List.nodup_nil
  fresh _ hs := absurd hs List.not_mem_nil
  seqs _ hs := absurd hs List.not_mem_nil
  tables _ hj := absurd hj List.not_mem_nil
  merges _ hm := absurd hm List.not_mem_nil
  disjoint := List.Pairwise.nil
  alone _ hm := absurd hm List.not_mem_nil
  tier t ht := absurd ht (Option.not_mem_none t)

/-- And what it leaves a key. -/
lemma leaves_empty (k : Bytes) : empty.leaves k = 1 := by
  have hsaid : saysOf empty.live k = 1 := settle_eq_one (fun _ ha => absurd ha List.not_mem_nil)
  rw [leaves, hsaid, one_mul]
  rfl

/-- **Each step** keeps the invariant, and leaves each key what it had and what the step writes. -/
lemma step_ok (hok : h.Ok) (op : LevelsOp) (hmeets : op.Meets h) :
    (h.step op).Ok ∧
      ∀ k (d : Delta Bytes), ((h.step op).leaves k * d).vals
      = (h.leaves k * (recordsDelta op.records k * d)).vals := by
  -- a step that writes nothing leaves what it found
  have hsame : ∀ {g : Levels}, (g.Ok ∧ ∀ k, g.leaves k = h.leaves k) →
      g.Ok ∧ ∀ k (d : Delta Bytes), (g.leaves k * d).vals
      = (h.leaves k * (recordsDelta [] k * d)).vals := by
    rintro g ⟨hg, hleaves⟩
    refine ⟨hg, fun k d => ?_⟩
    rw [hleaves k, recordsDelta_nil, one_mul]
  cases op with
  | write r =>
      refine ⟨hok.write r, fun k d => ?_⟩
      have hleaves : (h.step (.write r)).leaves k = h.leaves k * recordsDelta [r] k := by
        simp only [leaves, step, recordsDelta_append, mul_assoc]
      rw [hleaves, LevelsOp.records, mul_assoc]
  | commit => exact hsame ⟨hok.commit, fun k => rfl⟩
  | freeze putOne shape limit len => exact hsame (hok.freeze putOne shape limit len)
  | land => exact hsame hok.land
  | startCompact given room parts maxKeys =>
      exact hsame (hok.startCompact given room parts maxKeys hmeets)
  | joinMerge i =>
      obtain ⟨hjoin, hleaves⟩ := hok.joinMerge i
      refine ⟨hjoin, fun k d => ?_⟩
      change _ = (h.leaves k * (recordsDelta [] k * d)).vals
      rw [recordsDelta_nil, one_mul]
      exact hleaves k d
  | startTier f n => exact hsame (hok.startTier f n)
  | joinTier => exact hsame hok.joinTier
  | promoteRange f => exact hsame (hok.promoteRange f)
  | promoteUnpartitioned fits => exact hsame (hok.promoteUnpartitioned fits)

/-- **A run** keeps the invariant, and leaves each key what it had and all that was written. -/
lemma run_ok (hok : h.Ok) (hmeets : h.MeetsAll ops) :
    (h.run ops).Ok ∧ ∀ k (d : Delta Bytes),
      ((h.run ops).leaves k * d).vals
      = (h.leaves k * (recordsDelta (ops.flatMap LevelsOp.records) k * d)).vals := by
  induction ops generalizing h with
  | nil =>
      refine ⟨hok, fun k d => ?_⟩
      rw [List.flatMap_nil, recordsDelta_nil, one_mul]
      rfl
  | cons op ops ih =>
      obtain ⟨hop, hops⟩ := hmeets
      obtain ⟨hstep, hleaves⟩ := step_ok hok op hop
      obtain ⟨hrun, hrest⟩ := ih hstep hops
      refine ⟨hrun, fun k d => ?_⟩
      rw [List.flatMap_cons, recordsDelta_append, mul_assoc, ← hleaves k]
      exact hrest k d

end Levels

/-- A piece of two keys. -/
def onePiece : Seg := ⟨.whole 0 2, [⟨[1], [[1]], false⟩, ⟨[9], [[1]], false⟩]⟩

/-- The store of the two partitions that a merge makes of it. -/
def twoParts : Levels :=
  ⟨[⟨.piece ⟨.par, 1, 2, ([], some [9])⟩, [⟨[1], [[1]], false⟩]⟩,
    ⟨.piece ⟨.par, 2, 2, ([9], none)⟩, [⟨[9], [[1]], false⟩]⟩], [], [], [], none, 2, 2, 9⟩

/-- A merge of everything makes two partitions, and each is merged again beside a landing. -/
def twoMerges : List LevelsOp :=
  [.write (.put [1] [1]), .write (.put [9] [1]), .freeze false false 100 50, .land,
    .startCompact none 1 2 0, .joinMerge 0, .startCompact (some [([], some [9])]) 2 1 0,
    .startCompact (some [([9], none)]) 2 1 0, .write (.put [7] [2]), .freeze true true 100 50,
    .land]

lemma outputs_onePiece :
    Levels.mergeOutputs ⟨1, 2, 2, none, 1000, true, true, true⟩ [onePiece] = twoParts.live := by
  have hkeys : allKeys [onePiece.input] = [[1], [9]] := by
    rw [allKeys, onePiece]
    simp +decide [Input.keys, Seg.input, List.mergeSort, List.MergeSort.Internal.splitInTwo]
  rw [Levels.mergeOutputs, List.map_singleton, compactParts, hkeys]
  with_unfolding_all rfl

lemma run_twoParts : Levels.empty.run (twoMerges.take 6) = twoParts := by
  have hstart : Levels.empty.run (twoMerges.take 5) =
      ⟨[onePiece], [], [], [⟨[onePiece], none, twoParts.live⟩], none, 2, 2, 9⟩ := by
    rw [← outputs_onePiece]
    with_unfolding_all rfl
  have hsort : Levels.publish twoParts.live = twoParts.live :=
    List.mergeSort_of_pairwise (by decide)
  calc _ = (Levels.empty.run (twoMerges.take 5)).joinMerge 0 := rfl
    _ = { twoParts with live := Levels.publish twoParts.live } := by rw [hstart]; rfl
    _ = _ := by rw [hsort]

lemma meets_twoMerges : Levels.empty.MeetsAll twoMerges := by
  refine And.intro trivial (And.intro trivial (And.intro trivial (And.intro trivial (And.intro ?_
    (And.intro trivial ?_)))))
  · refine ⟨fun _ => by decide +kernel, fun _ hsome => absurd rfl hsome, ?_⟩
    have hle : (Levels.mergeOutputs ⟨1, 2, 2, none, 1000, true, true, true⟩
        [onePiece]).length ≤ 8 := by
      rw [outputs_onePiece]
      decide
    with_unfolding_all exact hle
  · show Levels.MeetsAll (Levels.empty.run (twoMerges.take 6)) (twoMerges.drop 6)
    rw [run_twoParts]
    have hsome : ∀ {f : List Fence}, some f ≠ none := Option.some_ne_none _
    refine And.intro ⟨fun h => absurd h hsome, fun _ _ => ?_, ?_⟩ (And.intro
      ⟨fun h => absurd h hsome, fun _ _ => ?_, ?_⟩ (And.intro trivial (And.intro trivial
        (And.intro trivial trivial))))
    all_goals decide +kernel

/-- **At any point of any run**, whatever landed or was renamed since a merge started, all that the
merge took is live, nothing that it writes is, no other merge took any of it, and no two segments
that are live, wait or are being written share an id. -/
theorem levels_in_flight {ops : List LevelsOp} (hops : Levels.empty.MeetsAll ops) :
    let h := Levels.empty.run ops
    (∀ m ∈ h.merging, (∀ s ∈ m.inputs, s ∈ h.live) ∧ ∀ o ∈ m.outputs, o ∉ h.live) ∧
      h.merging.Pairwise (fun a b => ∀ s ∈ a.inputs, s ∉ b.inputs) ∧
      (∀ t ∈ h.tiering, ∀ s ∈ t.inputs, (s ∈ h.live ∧ s.isPart = false) ∧ ∀ m ∈ h.merging,
      s ∉ m.inputs) ∧ ((h.live ++ (h.queue ++ h.flying)).map Seg.id).Nodup := by
  intro h
  obtain ⟨hok, -⟩ := Levels.run_ok Levels.empty_ok hops
  refine ⟨fun m hm =>
    ⟨(hok.merges m hm).sub, fun o ho => hok.not_live (Levels.Ok.mem_flying hm ho)⟩, hok.disjoint,
    ?_, hok.ids⟩
  intro t ht s hs
  obtain ⟨htier, hfree⟩ := hok.tier t ht
  exact ⟨htier.sub s hs, fun m hm => hfree m hm s hs⟩

/-- Two merges over two partitions, beside a table that is frozen and lands. -/
theorem levels_in_flight_merge :
    let h := Levels.empty.run twoMerges
    (∀ m ∈ h.merging, (∀ s ∈ m.inputs, s ∈ h.live) ∧ ∀ o ∈ m.outputs, o ∉ h.live) ∧
      h.merging.Pairwise (fun a b => ∀ s ∈ a.inputs, s ∉ b.inputs) ∧
      (∀ t ∈ h.tiering, ∀ s ∈ t.inputs, (s ∈ h.live ∧ s.isPart = false) ∧ ∀ m ∈ h.merging,
      s ∉ m.inputs) ∧ ((h.live ++ (h.queue ++ h.flying)).map Seg.id).Nodup :=
  levels_in_flight meets_twoMerges

end Supdb

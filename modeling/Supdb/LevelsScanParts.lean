import Supdb.LevelsRun
import Supdb.LevelsScanMerged

/-!
# The scan of partitions alone

With no piece the partitions are walked in bulk.  Whether the next unsealed key cuts a walk is asked
of the walk's window only, and a key that falls past a partition's fence is left to the next one,
or, past the last, to the end.

* `PartAt` – a point of the scan in a partition: what is left of the others begins at its end or
  behind.
* `bulk_eq` – the keys walked in bulk are the next ones, and no table says anything of them.
* `partLoop_eq`, `partsLoop_eq` – one partition, and one after another.
* **`scanPartitions_eq`** – the scan hands out the keys held from the start on, each with what a
  read gives.
* **`levels_scan`** – at any point of any run the three walks agree, and leave out no key with a
  value.
-/

namespace Supdb

open StorageLib

section Parts

variable {h : Levels} {start : Bytes} {p : Bytes → Bool} {s : Seg} {ks : List Bytes}

/-- **A point of the scan** in a partition, with `p` taken and `ks` left. -/
structure PartAt (h : Levels) (s : Seg) (p : Bytes → Bool) (ks : List Bytes) : Prop where
  upto : Upto h.Held p ks
  down : ∀ x y, x < y → p y = true → p x = true
  mem : s ∈ h.live
  others : ∀ q ∈ h.live, q ≠ s → ∀ x ∈ q.keys, p x = true ∨ ∃ y ∈ s.fence.2, y ≤ x

namespace PartAt

/-- **What is left** is the partition's, unsealed, or past the partition. -/
lemma left (w : PartAt h s p ks) {x : Bytes} (hx : x ∈ ks) :
    x ∈ s.keys ∨ x ∈ h.unsealedAt p ∨ ∃ y ∈ s.fence.2, y ≤ x := by
  obtain ⟨hheld, hleft⟩ := (w.upto.mem x).mp hx
  rcases hheld with ⟨q, hq, hxq⟩ | hxu
  · by_cases hqs : q = s
    · exact Or.inl (hqs ▸ hxq)
    · rcases w.others q hq hqs x hxq with htaken | hpast
      · rw [hleft] at htaken
        exact absurd htaken (by simp)
      · exact Or.inr (Or.inr hpast)
  · refine Or.inr (Or.inl ?_)
    rw [Levels.unsealedAt, (drop_placeOf pairwise_unsealed w.down).1]
    exact List.mem_filter.mpr ⟨hxu, by rw [hleft]; rfl⟩

/-- **The next key taken**, one that lies below the partition's end. -/
lemma next {k : Bytes} (w : PartAt h s p (k :: ks)) : PartAt h s (keyUpto k) ks where
  upto := w.upto.next keyUpto_eq_true
  down x y hxy hy := (keyUpto_eq_true x).mpr (hxy.le.trans ((keyUpto_eq_true y).mp hy))
  mem := w.mem
  others q hq hqs x hx := by
    rcases w.others q hq hqs x hx with htaken | hpast
    · exact Or.inl ((keyUpto_eq_true x).mpr (w.upto.below x k htaken List.mem_cons_self).le)
    · exact Or.inr hpast

lemma below_iff {k x : Bytes} (w : PartAt h s p (k :: ks)) (hx : h.Held x) :
    p x = keyBelow k x := by
  rw [Bool.eq_iff_iff, w.upto.at_head hx, keyBelow_eq_true]

/-- Where the partition's cursor and the unsealed keys stand behind it. -/
lemma place_next {k : Bytes} (hs : Settled h.live h.queue) (w : PartAt h s p (k :: ks)) :
    placeOf s.keys (keyUpto k) = placeOf s.keys p + (if k ∈ s.keys then 1 else 0) ∧
      h.unsealedAt (keyUpto k) = if decide ((h.unsealedAt p).head? = some k)
      = true then (h.unsealedAt p).tail else h.unsealedAt p := by
  have hsorted := (hs.fits_live s w.mem).sorted
  rw [placeOf_congr (fun x hx => w.below_iff (Or.inl ⟨s, w.mem, hx⟩)),
    unsealedAt_congr (fun x hx => w.below_iff (Or.inr hx))]
  exact ⟨placeOf_le hsorted keyBelow_eq_true keyUpto_eq_true, (unsealedAt_below k).2.2.symm⟩

/-- What the state leaves the next key: what this partition says of it, and the tables. -/
lemma leaves_next {k : Bytes} (hs : Settled h.live h.queue) (hnodup : h.live.Nodup)
    (hsorted : h.live.Pairwise (fun s t => s.rank ≤ t.rank)) (w : PartAt h s p (k :: ks))
    (hin : ∀ y ∈ s.fence.2, k < y) :
    h.leaves k = s.delta k * ((h.sealing.map (fun j => recordsDelta j.table k)).prod * recordsDelta h.mem k) := by
  have hone : List.count s h.live = 1 := List.count_eq_one_of_mem hnodup w.mem
  rw [leaves_eq_prod hs hnodup hsorted,
    List.prod_map_eq_pow_single s _ (fun q hqs hq => Seg.delta_eq_one (fun hk => ?_)),
    hone, pow_one]
  rcases w.others q hq hqs k hk with htaken | ⟨y, hy, hle⟩
  · exact lt_irrefl k (w.upto.below k k htaken List.mem_cons_self)
  · exact absurd (hin y hy) (not_lt_of_ge hle)

/-- **An unsealed key handed out** with the partition's cursor where that stands on it. -/
lemma emit_unsealed {k : Bytes} (hs : Settled h.live h.queue) (hnodup : h.live.Nodup)
    (hsorted : h.live.Pairwise (fun s t => s.rank ≤ t.rank)) (w : PartAt h s p (k :: ks))
    (hin : ∀ y ∈ s.fence.2, k < y) (hun : k ∈ h.unsealed) {part : Option Cur}
    (hpart : (part.map Cur.values).getD [] = (s.delta k).vals) :
    h.emitUnsealed k part = (k, (h.leaves k).vals) := by
  have hemit := emit_eq (h := h) (k := k) [s.delta k] (le_refl _)
    (fun c (hc : c ∈ ([] : List Cur)) => absurd hc List.not_mem_nil)
    (⟨fun _ => hun, fun _ => rfl⟩ : true = true ↔ _)
  rw [List.length_singleton, List.length_nil, Nat.add_zero, List.flatMap_singleton,
    Levels.scanSources, List.map_nil, List.nil_append,
    List.prod_append, List.prod_append, List.prod_singleton,
    List.prod_singleton, ← w.leaves_next hs hnodup hsorted hin] at hemit
  rw [Levels.emitUnsealed, hpart, ← hemit]
  simp only [cursorVals, List.zipIdx_nil, List.flatMap_nil, List.nil_append]

/-- The first of the unsealed keys left is the least. -/
lemma head_le {u x : Bytes} (hu : (h.unsealedAt p).head? = some u) (hx : x ∈ h.unsealedAt p) :
    u ≤ x := by
  have hpair : (h.unsealedAt p).Pairwise (· < ·) :=
    pairwise_unsealed.sublist (List.drop_sublist _ _)
  obtain ⟨rest, hcons⟩ := List.head?_eq_some_iff.mp hu
  rw [hcons] at hpair hx
  rcases List.mem_cons.mp hx with rfl | hx
  · exact le_refl _
  · exact ((List.pairwise_cons.mp hpair).1 x hx).le

/-- The key the partition's cursor stands on is not taken, and the least of it that is not. -/
lemma key_place (hs : Settled h.live h.queue) (w : PartAt h s p ks) {x : Bytes}
    (hx : s.keys[placeOf s.keys p]? = some x) :
    x ∈ s.keys ∧ x ∈ ks ∧ ∀ k ∈ s.keys, k ∈ ks → x ≤ k := by
  have hsorted := (hs.fits_live s w.mem).sorted
  rw [getElem?_placeOf hsorted w.down] at hx
  obtain ⟨hxk, hleft⟩ := List.mem_filter.mp (List.mem_of_mem_head? hx)
  have hpair := hsorted.filter (fun x => !p x)
  obtain ⟨rest, hcons⟩ := List.head?_eq_some_iff.mp hx
  refine ⟨hxk, (w.upto.mem x).mpr ⟨Or.inl ⟨s, w.mem, hxk⟩, by simpa using hleft⟩,
    fun k hk hkks => ?_⟩
  have hmem : k ∈ s.keys.filter (fun x => !p x) :=
    List.mem_filter.mpr ⟨hk, by rw [((w.upto.mem k).mp hkks).2]; rfl⟩
  rw [hcons] at hpair hmem
  rcases List.mem_cons.mp hmem with rfl | hmem
  · exact le_refl _
  · exact ((List.pairwise_cons.mp hpair).1 k hmem).le

end PartAt

/-! ## In bulk -/

/-- What a walk may go on with: what is taken beyond `p` lies below the partition's end. -/
def TakesBelow (s : Seg) (p q : Bytes → Bool) : Prop := ∀ x, q x = true → p x = true ∨
    ∀ y ∈ s.fence.2, x < y

/-- **The keys walked in bulk** are the next ones, each with what the state leaves it. -/
lemma bulk_eq (hs : Settled h.live h.queue) (hnodup : h.live.Nodup)
    (hsorted : h.live.Pairwise (fun s t => s.rank ≤ t.rank)) (m : ℕ) (w : PartAt h s p ks)
    (hm : placeOf s.keys p + m ≤ s.keys.length)
    (hbelow : ∀ u, (h.unsealedAt p).head? = some u → ∀ i < m, ∀ x, s.keys[placeOf s.keys p + i]?
    = some x → x < u) :
    ∃ ks1 ks2 q, ks = ks1 ++ ks2 ∧ ks1.length = m ∧ PartAt h s q ks2 ∧ TakesBelow s p q ∧
      placeOf s.keys q = placeOf s.keys p + m ∧ h.unsealedAt q = h.unsealedAt p ∧
        Levels.bulk s (placeOf s.keys p) m = ks1.map (fun k => (k, (h.leaves k).vals)) := by
  have hfits := hs.fits_live s w.mem
  induction m generalizing p ks with
  | zero => exact ⟨[], ks, p, rfl, rfl, w, fun x hx => Or.inl hx, rfl, rfl, by rw [Levels.bulk, List.take_zero]; rfl⟩
  | succ m ih =>
      have hlt : placeOf s.keys p < s.entries.length := by
        have hlen : s.keys.length = s.entries.length := List.length_map _
        omega
      have hentry := List.getElem?_eq_getElem hlt
      have hkey : s.keys[placeOf s.keys p]? = some s.entries[placeOf s.keys p].key :=
        List.getElem?_map.trans (by rw [hentry]; rfl)
      set e := s.entries[placeOf s.keys p] with he
      obtain ⟨hek, heks, hleast⟩ := w.key_place hs hkey
      have hunder : ∀ u, (h.unsealedAt p).head? = some u → e.key < u :=
        fun u hu => hbelow u hu 0 (Nat.succ_pos m) e.key (by rw [Nat.add_zero, hkey])
      have hend : ∀ y ∈ s.fence.2, e.key < y := (hfits.inside e.key hek).2
      obtain ⟨k, ks', rfl⟩ := List.exists_cons_of_ne_nil (List.ne_nil_of_mem heks)
      -- the next key is the one the partition's cursor stands on
      have hke : k ≤ e.key := by
        rcases List.mem_cons.mp heks with heq | hmem
        · exact heq.ge
        · exact ((List.pairwise_cons.mp w.upto.sorted).1 _ hmem).le
      have hk : k = e.key := by
        refine le_antisymm hke ?_
        rcases w.left List.mem_cons_self with hks | hku | ⟨y, hy, hle⟩
        · exact hleast k hks List.mem_cons_self
        · cases hhead : (h.unsealedAt p).head? with
          | none =>
              rw [List.head?_eq_none_iff] at hhead
              rw [hhead] at hku
              exact absurd hku List.not_mem_nil
          | some u => exact ((hunder u hhead).le.trans (PartAt.head_le hhead hku))
        · exact (hend y hy).le.trans hle
      subst hk
      have hnot : e.key ∉ h.unsealed := by
        intro hmem
        have hleft : e.key ∈ h.unsealedAt p := by
          rw [Levels.unsealedAt, (drop_placeOf pairwise_unsealed w.down).1]
          exact List.mem_filter.mpr ⟨hmem, by rw [((w.upto.mem e.key).mp List.mem_cons_self).2]; rfl⟩
        cases hhead : (h.unsealedAt p).head? with
        | none =>
            rw [List.head?_eq_none_iff] at hhead
            rw [hhead] at hleft
            exact absurd hleft List.not_mem_nil
        | some u => exact absurd (hunder u hhead) (not_lt_of_ge (PartAt.head_le hhead hleft))
      obtain ⟨hplace, hun⟩ := w.place_next hs
      rw [if_pos hek] at hplace
      rw [if_neg (fun hyes => absurd (hunder _ (of_decide_eq_true hyes)) (lt_irrefl _))] at hun
      obtain ⟨ks1, ks2, q, rfl, hlen, wq, hwithin, hplaceq, hunq, hbulk⟩ := ih w.next (by rw [hplace]; omega)
        (fun u hu i hi x hx => hbelow u (by rwa [hun] at hu) (i + 1) (Nat.succ_lt_succ hi) x
        (by rwa [hplace, Nat.add_assoc, Nat.add_comm 1] at hx))
      refine ⟨e.key :: ks1, ks2, q,
        rfl, by rw [List.length_cons, hlen], wq, fun x hx => ?_, by rw [hplaceq, hplace]; omega,
        by rw [hunq, hun], ?_⟩
      · rcases hwithin x hx with hle | hin
        · exact Or.inr (fun y hy => ((keyUpto_eq_true x).mp hle).trans_lt (hend y hy))
        · exact Or.inr hin
      · have hsaid : (h.leaves e.key).vals = e.values := by
          obtain ⟨hfrozen, hmem⟩ := table_eq_one hnot
          rw [w.leaves_next hs hnodup hsorted hend, hmem, mul_one, List.prod_eq_one (fun d hd => by
            obtain ⟨j, hj, rfl⟩ := List.mem_map.mp hd
            exact hfrozen j hj), mul_one, delta_of_getElem? hfits.sorted hentry]
        rw [Levels.bulk, List.drop_eq_getElem_cons hlt, List.take_succ_cons, List.map_cons, List.map_cons, hsaid]
        congr 1
        rw [← hbulk, hplace]
        rfl

/-! ## One partition -/

/-- The first unsealed key left is among what is left. -/
lemma PartAt.head_mem {u : Bytes} (w : PartAt h s p ks) (hu : (h.unsealedAt p).head? = some u) :
    u ∈ h.unsealed ∧ u ∈ ks := by
  have hmem := List.mem_of_mem_head? hu
  rw [Levels.unsealedAt, (drop_placeOf pairwise_unsealed w.down).1] at hmem
  obtain ⟨hmem, hleft⟩ := List.mem_filter.mp hmem
  exact ⟨hmem, (w.upto.mem u).mpr ⟨Or.inr hmem, by simpa using hleft⟩⟩

/-- **Where a walk is cut**: at the window's end, or at the place of the first unsealed key left. -/
lemma cutAt_spec (hs : Settled h.live h.queue) (w : PartAt h s p ks) {hi : ℕ}
    (hlo : placeOf s.keys p ≤ hi) (hhi : hi ≤ s.keys.length) :
    let cut := Levels.cutAt s (placeOf s.keys p) hi (h.unsealedAt p).head?
    placeOf s.keys p ≤ cut.1 ∧ cut.1 ≤ hi ∧
      (∀ u, (h.unsealedAt p).head? = some u → ∀ i < cut.1 - placeOf s.keys p, ∀ x,
        s.keys[placeOf s.keys p + i]? = some x → x < u) ∧
        (cut.1 = hi ∧ cut.2 = false ∨ ∃ u, (h.unsealedAt p).head? = some u ∧
          cut.1 = placeOf s.keys (keyBelow u) ∧ cut.1 < hi ∧
          cut.2 = decide (s.keys[cut.1]? = some u)) := by
  have hsorted := (hs.fits_live s w.mem).sorted
  intro cut
  cases hhead : (h.unsealedAt p).head? with
  | none =>
      have hcut : cut = (hi, false) := by simp only [cut, Levels.cutAt, hhead]
      rw [hcut]
      exact ⟨hlo, le_refl _, fun u hu => absurd hu.symm (Option.some_ne_none u), Or.inl ⟨rfl, rfl⟩⟩
  | some u =>
      have huks := (w.head_mem hhead).2
      have hmono : placeOf s.keys p ≤ placeOf s.keys (keyBelow u) :=
        placeOf_mono (fun x _ hx => (keyBelow_eq_true x).mpr (w.upto.below x u hx huks))
      have hseek : seekIn s.keys u (placeOf s.keys p) hi = min (placeOf s.keys (keyBelow u)) hi :=
        partitionPoint_placeOf hsorted keyBelow_eq_true hhi hmono hlo
      have hlt : ∀ i x, placeOf s.keys p + i < placeOf s.keys (keyBelow u) →
        s.keys[placeOf s.keys p + i]? = some x → x < u := by
        intro i x hi hx
        obtain ⟨hil, rfl⟩ := List.getElem?_eq_some_iff.mp hx
        exact (lt_iff_lt_length_filter hsorted keyBelow_eq_true _ hil).mpr hi
      by_cases hin : placeOf s.keys p < hi
      · by_cases hpast : hi ≤ min (placeOf s.keys (keyBelow u)) hi
        · have hcut : cut = (hi, false) := by simp only [cut, Levels.cutAt, hhead, if_pos hin, hseek, if_pos hpast]
          have hle : hi ≤ placeOf s.keys (keyBelow u) := (le_min_iff.mp hpast).1
          rw [hcut]
          refine ⟨hlo, le_refl _, fun v hv i hi x hx => ?_, Or.inl ⟨rfl, rfl⟩⟩
          rw [← Option.some.inj hv]
          exact hlt i x (by omega) hx
        · have hle : placeOf s.keys (keyBelow u) < hi := by
            by_contra hge
            exact hpast (le_min (not_lt.mp hge) (le_refl _))
          have hmin : min (placeOf s.keys (keyBelow u)) hi = placeOf s.keys (keyBelow u) := min_eq_left hle.le
          have hcut : cut = (placeOf s.keys (keyBelow u), decide (s.keys[placeOf s.keys (keyBelow u)]? = some u)) := by
            rw [hmin] at hseek hpast
            simp only [cut, Levels.cutAt, hhead, if_pos hin, hseek, if_neg hpast]
          rw [hcut]
          refine ⟨hmono, hle.le, fun v hv i hi x hx => ?_, Or.inr ⟨u, rfl, rfl, hle, rfl⟩⟩
          rw [← Option.some.inj hv]
          exact hlt i x (by omega) hx
      · have hcut : cut = (hi, false) := by simp only [cut, Levels.cutAt, hhead, if_neg hin]
        rw [hcut]
        exact ⟨hlo, le_refl _, fun v _ i hi => absurd hi (by omega), Or.inl ⟨rfl, rfl⟩⟩

/-- Where the partition's cursor is past its last key, nothing of it is left. -/
lemma not_mem_of_place (hend : placeOf s.keys p = s.keys.length) (w : PartAt h s p ks) {x : Bytes}
    (hx : x ∈ ks) : x ∉ s.keys := by
  intro hxk
  have hall : ∀ y ∈ s.keys, p y = true := List.length_filter_eq_length_iff.mp hend
  have hleft := ((w.upto.mem x).mp hx).2
  rw [hall x hxk] at hleft
  exact absurd hleft (by simp)

/-- **A walk stopped** short of what is wanted, with unsealed keys left: at its end, or at the first
of them. -/
structure PartStop (h : Levels) (s : Seg) (p : Bytes → Bool) (ks : List Bytes) (u : Bytes)
    (cut : ℕ × Bool) : Prop extends PartAt h s p ks where
  head : (h.unsealedAt p).head? = some u
  place : placeOf s.keys p = cut.1
  stop : cut.1 = s.keys.length ∧ cut.2 = false ∨
    cut.1 = placeOf s.keys (keyBelow u) ∧ cut.2 = decide (s.keys[cut.1]? = some u)

namespace PartStop

variable {u : Bytes} {cut : ℕ × Bool}

/-- Of the partition, what is left is not below the unsealed key. -/
lemma le_of_mem (hs : Settled h.live h.queue) (w : PartStop h s p ks u cut) {x : Bytes}
    (hx : x ∈ s.keys) (hxks : x ∈ ks) : u ≤ x := by
  have hfits := hs.fits_live s w.mem
  rcases w.stop with ⟨hend, -⟩ | ⟨hat, -⟩
  · exact absurd hx (not_mem_of_place (w.place.trans hend) w.toPartAt hxks)
  · have hdown := keyBelow_down u
    have hdrop := (drop_placeOf hfits.sorted w.down).1
    rw [w.place, hat, (drop_placeOf hfits.sorted hdown).1] at hdrop
    have hmem : x ∈ s.keys.filter (fun x => !p x) :=
      List.mem_filter.mpr ⟨hx, by rw [((w.upto.mem x).mp hxks).2]; rfl⟩
    rw [← hdrop] at hmem
    have hno := (List.mem_filter.mp hmem).2
    rwa [Bool.not_eq_true', ← Bool.not_eq_true, keyBelow_eq_true, not_lt] at hno

/-- **The partition's cursor stands on the key** where the partition holds it. -/
lemma same_iff (hs : Settled h.live h.queue) (w : PartStop h s p ks u cut) :
    ((decide (cut.1 < s.keys.length) && cut.2) = true ↔ u ∈ s.keys) ∧
    (u ∈ s.keys → s.keys[cut.1]? = some u) := by
  have hfits := hs.fits_live s w.mem
  have hget : u ∈ s.keys → s.keys[cut.1]? = some u ∧ cut.2 = true := by
    intro hmem
    rcases w.stop with ⟨hend, -⟩ | ⟨hat, hsame⟩
    · exact absurd hmem (not_mem_of_place (w.place.trans hend) w.toPartAt (w.head_mem w.head).2)
    · have hplace := (getElem?_placeOf_lt hfits.sorted (keyBelow_eq_true (k := u))).mpr hmem
      rw [← hat] at hplace
      exact ⟨hplace, by rw [hsame, decide_eq_true hplace]⟩
  refine ⟨⟨fun hyes => ?_, fun hmem => ?_⟩, fun hmem => (hget hmem).1⟩
  · rw [Bool.and_eq_true, decide_eq_true_eq] at hyes
    rcases w.stop with ⟨-, hno⟩ | ⟨-, hsame⟩
    · rw [hno] at hyes
      exact absurd hyes.2 (by simp)
    · rw [hsame, decide_eq_true_eq] at hyes
      exact List.mem_of_getElem? hyes.2
  · rw [(hget hmem).2, Bool.and_true, decide_eq_true (List.getElem?_eq_some_iff.mp (hget hmem).1).1]

/-- **The key past the partition**: nothing of the partition's range is left. -/
lemma past (hs : Settled h.live h.queue) (w : PartStop h s p ks u cut)
    (hpast : (s.fence.2.any (fun x => decide (x ≤ u)) ||
    (decide (s.keys.length ≤ cut.1) && s.fence.2.isNone)) = true) :
    ∀ x ∈ ks, x ∉ s.keys ∧ ∀ y ∈ s.fence.2, y ≤ x := by
  have hfits := hs.fits_live s w.mem
  rw [Bool.or_eq_true, Bool.and_eq_true, decide_eq_true_eq] at hpast
  have hplace := w.place
  have hgone : ∀ x ∈ ks, x ∉ s.keys := by
    intro x hx hxk
    rcases hpast with hpast | ⟨hend, -⟩
    · obtain ⟨y, hy, hle⟩ := (Option.any_eq_true _ _).mp hpast
      exact absurd ((hfits.inside x hxk).2 y hy) (not_lt_of_ge ((of_decide_eq_true hle).trans (w.le_of_mem hs hxk hx)))
    · have hle : placeOf s.keys p ≤ s.keys.length := List.length_filter_le _ _
      exact not_mem_of_place (by omega) w.toPartAt hx hxk
  refine fun x hx => ⟨hgone x hx, fun y hy => ?_⟩
  rcases w.left hx with hxs | hxu | ⟨y', hy', hle⟩
  · exact absurd hxs (hgone x hx)
  · rcases hpast with hpast | ⟨-, hnone⟩
    · rw [Option.mem_def.mp hy, Option.any_some, decide_eq_true_eq] at hpast
      exact hpast.trans (PartAt.head_le w.head hxu)
    · rw [Option.mem_def.mp hy] at hnone
      exact absurd hnone (by simp)
  · rwa [Option.mem_unique hy hy']

/-- **The key in the partition's range** is the next one. -/
lemma next_key (hs : Settled h.live h.queue) (w : PartStop h s p ks u cut)
    (hend : ∀ y ∈ s.fence.2, u < y) : ∃ rest, ks = u :: rest := by
  obtain ⟨-, huks⟩ := w.head_mem w.head
  obtain ⟨k, rest, rfl⟩ := List.exists_cons_of_ne_nil (List.ne_nil_of_mem huks)
  have hku : k ≤ u := by
    rcases List.mem_cons.mp huks with heq | hmem
    · exact heq.ge
    · exact ((List.pairwise_cons.mp w.upto.sorted).1 _ hmem).le
  have huk : u ≤ k := by
    rcases w.left List.mem_cons_self with hks | hkun | ⟨y, hy, hle⟩
    · exact w.le_of_mem hs hks List.mem_cons_self
    · exact PartAt.head_le w.head hkun
    · exact ((hend y hy).trans_le hle).le
  exact ⟨rest, by rw [le_antisymm hku huk]⟩

/-- What the partition's cursor gives of the key, where it stands on it. -/
lemma values (hs : Settled h.live h.queue) (w : PartStop h s p ks u cut) :
    ((if (decide (cut.1 < s.keys.length) && cut.2)
      = true then some (⟨s, cut.1⟩ : Cur) else none).map Cur.values).getD []
      = (s.delta u).vals := by
  obtain ⟨hsame, hget⟩ := w.same_iff hs
  by_cases hmem : u ∈ s.keys
  · obtain ⟨e, he, hek⟩ := Option.map_eq_some_iff.mp (List.getElem?_map.symm.trans (hget hmem))
    rw [if_pos (hsame.mpr hmem), Option.map_some, Option.getD_some, Cur.values, he, ← hek,
      delta_of_getElem? (hs.fits_live s w.mem).sorted he]
    rfl
  · rw [if_neg (fun hyes => hmem (hsame.mp hyes)), Seg.delta_eq_one hmem]
    rfl

end PartStop

/-- **The walk of a partition** hands out the next keys, until as many are out as are wanted or no
key of its range is left. -/
lemma partLoop_eq (hs : Settled h.live h.queue) (hnodup : h.live.Nodup)
    (hsorted : h.live.Pairwise (fun s t => s.rank ≤ t.rank)) (n : ℕ) (w : PartAt h s p ks) :
    ∃ ks1 ks2 q, ks = ks1 ++ ks2 ∧ ks1.length ≤ n ∧ PartAt h s q ks2 ∧ TakesBelow s p q ∧
      h.partLoop s n (placeOf s.keys p) (h.unsealedAt p)
        = (ks1.map (fun k => (k, (h.leaves k).vals)), n - ks1.length, h.unsealedAt q) ∧
      (ks1.length = n ∨ ∀ x ∈ ks2, x ∉ s.keys ∧ ∀ y ∈ s.fence.2, y ≤ x) := by
  have hfits := hs.fits_live s w.mem
  induction n using Nat.strong_induction_on generalizing p ks with
  | _ n ih =>
      rw [Levels.partLoop]
      by_cases hn : n = 0
      · rw [if_pos hn]
        exact ⟨[], ks, p, rfl, Nat.zero_le _, w, fun x hx => Or.inl hx, by rw [hn]; rfl, Or.inl hn.symm⟩
      rw [if_neg hn]
      have hplace : placeOf s.keys p ≤ s.keys.length := List.length_filter_le _ _
      obtain ⟨hlo, hhi, hbelow, hcut⟩ := cutAt_spec hs w (le_min (Nat.le_add_right _ n) hplace) (min_le_right _ _)
      dsimp only
      set cut := Levels.cutAt s (placeOf s.keys p) (min (placeOf s.keys p + n) s.keys.length) (h.unsealedAt p).head?
      have hhi' : cut.1 ≤ placeOf s.keys p + n ∧ cut.1 ≤ s.keys.length := le_min_iff.mp hhi
      obtain ⟨ks1, ks2, q, rfl, hlen, wq, hwithin, hplaceq, hunq, hbulk⟩ :=
        bulk_eq hs hnodup hsorted (cut.1 - placeOf s.keys p) w (by omega) hbelow
      have hplace' : placeOf s.keys p + (cut.1 - placeOf s.keys p) = cut.1 := by omega
      rw [hbulk, hplace']
      rw [hplace'] at hplaceq
      by_cases hfull : n ≤ cut.1 - placeOf s.keys p
      · rw [if_pos hfull, ← hlen]
        exact ⟨ks1, ks2, q, rfl, by omega, wq, hwithin, by rw [hunq], Or.inl (by omega)⟩
      rw [if_neg hfull]
      -- short of what is wanted, the walk was cut at an unsealed key or is at its end
      have hstop : cut.1 = s.keys.length ∧ cut.2 = false ∨ ∃ u, (h.unsealedAt p).head? = some u ∧
          cut.1 = placeOf s.keys (keyBelow u) ∧ cut.2 = decide (s.keys[cut.1]? = some u) := by
        rcases hcut with ⟨heq, hno⟩ | ⟨u, hu, hat, -, hsame⟩
        · refine Or.inl ⟨?_, hno⟩
          rcases min_choice (placeOf s.keys p + n) s.keys.length with hmin | hmin <;> omega
        · exact Or.inr ⟨u, hu, hat, hsame⟩
      cases hus : h.unsealedAt p with
      | nil =>
          -- no unsealed key is left
          have hend : cut.1 = s.keys.length := by
            rcases hstop with ⟨hend, -⟩ | ⟨u, hu, -⟩
            · exact hend
            · rw [hus] at hu
              exact absurd hu.symm (Option.some_ne_none u)
          refine ⟨ks1, ks2, q, rfl, by omega, wq, hwithin, by rw [hunq, hus, hlen], Or.inr (fun x hx => ?_)⟩
          have hnot := not_mem_of_place (hplaceq.trans hend) wq hx
          refine ⟨hnot, fun y hy => ?_⟩
          rcases wq.left hx with hxs | hxu | ⟨y', hy', hle⟩
          · exact absurd hxs hnot
          · rw [hunq, hus] at hxu
            exact absurd hxu List.not_mem_nil
          · rwa [Option.mem_unique hy hy']
      | cons u rest =>
          have stop : PartStop h s q ks2 u cut := by
            refine ⟨wq, by rw [hunq, hus]; rfl, hplaceq, hstop.imp_right (fun ⟨v, hv, hrest⟩ => ?_)⟩
            rw [hus] at hv
            rwa [Option.some.inj hv]
          obtain ⟨hsame, -⟩ := stop.same_iff hs
          dsimp only
          by_cases hbreak : (!(decide (cut.1 < s.keys.length) && cut.2) &&
              (s.fence.2.any (fun x => decide (x ≤ u)) || (decide (s.keys.length ≤ cut.1) && s.fence.2.isNone))) = true
          · rw [if_pos hbreak]
            rw [Bool.and_eq_true] at hbreak
            exact ⟨ks1, ks2, q, rfl, by omega, wq, hwithin, by rw [hunq, hus, hlen], Or.inr (stop.past hs hbreak.2)⟩
          · rw [if_neg hbreak]
            have hend : ∀ y ∈ s.fence.2, u < y := by
              intro y hy
              by_cases hmem : u ∈ s.keys
              · exact (hfits.inside u hmem).2 y hy
              · rw [Bool.eq_false_of_not_eq_true (fun hyes => hmem (hsame.mp hyes)), Bool.not_false,
                  Bool.true_and, Bool.or_eq_true,
                  not_or, Option.mem_def.mp hy, Option.any_some, decide_eq_true_eq, not_le] at hbreak
                exact hbreak.1
            obtain ⟨ks', rfl⟩ := stop.next_key hs hend
            obtain ⟨hplacen, hunn⟩ := wq.place_next hs
            rw [if_pos (decide_eq_true stop.head), hunq, hus, List.tail_cons] at hunn
            have hnext :
              (if (decide (cut.1 < s.keys.length) && cut.2) = true then cut.1 + 1 else cut.1)
              = placeOf s.keys (keyUpto u) := by
              rw [hplacen, hplaceq]
              by_cases hmem : u ∈ s.keys
              · rw [if_pos (hsame.mpr hmem), if_pos hmem]
              · rw [if_neg (fun hyes => hmem (hsame.mp hyes)), if_neg hmem, Nat.add_zero]
            have hemit := wq.emit_unsealed hs hnodup hsorted hend (wq.head_mem stop.head).1 (stop.values hs)
            obtain ⟨ls1, ls2, q', rfl, hlen', wq', hwithin', hloop, hdone⟩ :=
              ih (n - (cut.1 - placeOf s.keys p) - 1) (by omega) wq.next
            have hcount : n - (cut.1 - placeOf s.keys p) - 1 - ls1.length
              = n - (cut.1 - placeOf s.keys p + (ls1.length + 1)) := by omega
            rw [hnext, hemit, ← hunn, hloop]
            refine ⟨ks1 ++ u :: ls1, ls2, q', by simp, ?_, wq', fun x hx => ?_, ?_, ?_⟩
            · rw [List.length_append, List.length_cons]
              omega
            · rcases hwithin' x hx with hle | hin
              · exact Or.inr (fun y hy => ((keyUpto_eq_true x).mp hle).trans_lt (hend y hy))
              · exact Or.inr hin
            · rw [List.map_append, List.map_cons, List.length_append, List.length_cons, hlen, hcount]
            · refine hdone.imp_left (fun hfull' => ?_)
              rw [List.length_append, List.length_cons, hlen, hfull']
              omega

/-! ## One after another -/

lemma partsLoop_zero (ss : List Seg) (cursor : Bytes) (us : List Bytes) :
    h.partsLoop ss 0 cursor us = ([], 0, us) := by
  cases ss with
  | nil => rfl
  | cons s rest => rw [Levels.partsLoop, if_pos rfl]

/-- **The walk of the partitions ahead**, where there is no piece, hands out the next keys, until as
many are out as are wanted or none is left that a partition holds. -/
lemma partsLoop_eq (hs : Settled h.live h.queue) (hnodup : h.live.Nodup)
    (hsorted : h.live.Pairwise (fun s t => s.rank ≤ t.rank)) (hl0 : h.l0 = []) (done ss : List Seg)
    (hparts : h.parts = done ++ ss) (hp : Upto h.Held p ks)
    (hdown : ∀ x y, x < y → p y = true → p x = true) (hdone : ∀ q ∈ done, ∀ x ∈ q.keys, p x = true)
    (cursor : Bytes) (hcursor : ∀ s ∈ ss.head?, ∀ x ∈ s.keys, p x = keyBelow cursor x)
    (hahead : ∀ q ∈ ss.tail, ∀ x, q.fence.1 ≤ x → p x = false) (n : ℕ) :
    ∃ ks1 ks2 q, ks = ks1 ++ ks2 ∧ ks1.length ≤ n ∧ Upto h.Held q ks2 ∧
      (∀ x y, x < y → q y = true → q x = true) ∧ h.partsLoop ss n cursor (h.unsealedAt p)
      = (ks1.map (fun k => (k, (h.leaves k).vals)), n - ks1.length, h.unsealedAt q) ∧
      (ks1.length = n ∨ ∀ x ∈ ks2, ∀ s ∈ h.live, x ∉ s.keys) := by
  have hfits := hs.fits_live
  have hlive : ∀ s ∈ h.live, s ∈ h.parts := by
    intro s hsl
    refine mem_parts.mpr ⟨hsl, ?_⟩
    by_contra hno
    have hmem : s ∈ h.l0 := mem_l0.mpr ⟨hsl, Bool.eq_false_of_not_eq_true hno⟩
    rw [hl0] at hmem
    exact absurd hmem List.not_mem_nil
  induction ss generalizing done p ks cursor n with
  | nil =>
      refine ⟨[], ks, p, rfl, Nat.zero_le _, hp, hdown, rfl, Or.inr (fun x hx s hsl hxs => ?_)⟩
      have hmem := hlive s hsl
      rw [hparts, List.append_nil] at hmem
      have hleft := ((hp.mem x).mp hx).2
      rw [hdone s hmem x hxs] at hleft
      exact absurd hleft (by simp)
  | cons s rest ih =>
      rw [Levels.partsLoop]
      by_cases hn : n = 0
      · rw [if_pos hn]
        exact ⟨[], ks, p, rfl, Nat.zero_le _, hp, hdown, by rw [hn]; rfl, Or.inl hn.symm⟩
      rw [if_neg hn]
      have hsl := (mem_parts.mp (show s ∈ h.parts by rw [hparts]; simp)).1
      have hbefore : ∀ q ∈ rest, ∃ y ∈ s.fence.2, y ≤ q.fence.1 := by
        have hpair := parts_before hs hnodup hsorted
        rw [hparts] at hpair
        exact (List.pairwise_cons.mp (List.pairwise_append.mp hpair).2.1).1
      have w : PartAt h s p ks := by
        refine ⟨hp, hdown, hsl, fun q hq hqs x hx => ?_⟩
        have hmem := hlive q hq
        rw [hparts, List.mem_append, List.mem_cons] at hmem
        rcases hmem with hmem | rfl | hmem
        · exact Or.inl (hdone q hmem x hx)
        · exact absurd rfl hqs
        · obtain ⟨y, hy, hle⟩ := hbefore q hmem
          exact Or.inr ⟨y, hy, hle.trans ((hfits q hq).inside x hx).1⟩
      have hseek : s.seek (s.cursorFrom cursor) = placeOf s.keys p := by
        rw [placeOf_congr (hcursor s rfl)]
        exact congrArg Cur.rank ((hfits s hsl).cursorAt cursor)
      obtain ⟨ks1, ks2, q, rfl, hlen, wq, hwithin, hloop, hend⟩ := partLoop_eq hs hnodup hsorted n w
      dsimp only
      rw [hseek, hloop]
      by_cases hfull : ks1.length = n
      · -- as many are out as are wanted
        refine ⟨ks1, ks2, q, rfl, hlen, wq.upto, wq.down, ?_, Or.inl hfull⟩
        cases hfence : s.fence.2 with
        | none => rfl
        | some hi =>
            dsimp only
            rw [hfull, Nat.sub_self, partsLoop_zero, List.append_nil]
      have hgone := hend.resolve_left hfull
      have hdone' : ∀ d ∈ done ++ [s], ∀ x ∈ d.keys, q x = true := by
        intro d hd x hx
        by_contra hleft
        have hdl : d ∈ h.live := (mem_parts.mp (show d ∈ h.parts by rw [hparts]; simp at hd ⊢; tauto)).1
        have hxks : x ∈ ks2 := (wq.upto.mem x).mpr ⟨Or.inl ⟨d, hdl, hx⟩, Bool.eq_false_of_not_eq_true hleft⟩
        rcases List.mem_append.mp hd with hd | hd
        · have htaken := hdone d hd x hx
          have hleft' := ((hp.mem x).mp (List.mem_append_right _ hxks)).2
          rw [htaken] at hleft'
          exact absurd hleft' (by simp)
        · rw [List.mem_singleton.mp hd] at hx
          exact (hgone x hxks).1 hx
      cases hfence : s.fence.2 with
      | none =>
          have hrest : rest = [] := by
            rw [List.eq_nil_iff_forall_not_mem]
            intro r hr
            obtain ⟨y, hy, -⟩ := hbefore r hr
            rw [hfence] at hy
            exact Option.not_mem_none y hy
          refine ⟨ks1, ks2, q, rfl, hlen, wq.upto, wq.down, rfl, Or.inr (fun x hx d hd hxd => ?_)⟩
          have hmem := hlive d hd
          rw [hparts, hrest] at hmem
          have hleft := ((wq.upto.mem x).mp hx).2
          rw [hdone' d hmem x hxd] at hleft
          exact absurd hleft (by simp)
      | some hi =>
          have hpast : ∀ r ∈ rest, ∀ x, r.fence.1 ≤ x → q x = false := by
            intro r hr x hx
            rw [← Bool.not_eq_true]
            intro htaken
            obtain ⟨y, hy, hle⟩ := hbefore r hr
            rcases hwithin x htaken with hold | hin
            · rw [hahead r hr x hx] at hold
              exact absurd hold (by simp)
            · exact absurd (hin y hy) (not_lt_of_ge (hle.trans hx))
          -- nothing of the partition ahead is taken, nor below its start
          have hnext : ∀ r ∈ rest.head?, ∀ x ∈ r.keys, q x = keyBelow hi x := by
            intro r hr x hx
            have hr' := List.mem_of_mem_head? hr
            have hrl := (mem_parts.mp (show r ∈ h.parts by rw [hparts]; simp [hr'])).1
            have hlo := ((hfits r hrl).inside x hx).1
            obtain ⟨y, hy, hle⟩ := hbefore r hr'
            rw [hfence, Option.mem_def, Option.some.injEq] at hy
            rw [hpast r hr' x hlo, keyBelow, hy]
            exact (decide_eq_false (not_lt_of_ge (hle.trans hlo))).symm
          obtain ⟨ls1, ls2, q', rfl, hlen', hq', hdown', hloop', hend'⟩ :=
            ih (done ++ [s]) (by rw [hparts]; simp) wq.upto
            wq.down hdone' _ hnext (fun r hr => hpast r (List.mem_of_mem_tail hr)) (n - ks1.length)
          refine ⟨ks1 ++ ls1, ls2, q', by rw [List.append_assoc], ?_, hq', hdown', ?_, ?_⟩
          · rw [List.length_append]
            omega
          · dsimp only
            rw [hloop', List.map_append, List.length_append, Nat.sub_sub]
          · refine hend'.imp_left (fun heq => ?_)
            rw [List.length_append]
            omega

/-- **The scan of partitions alone** hands out what is held from the start on. -/
theorem scanPartitions_eq (hs : Settled h.live h.queue) (hnodup : h.live.Nodup)
    (hsorted : h.live.Pairwise (fun s t => s.rank ≤ t.rank)) (hl0 : h.l0 = []) (start : Bytes)
    (limit : ℕ) : h.scanPartitions start limit = h.scanned start limit := by
  have hfits := hs.fits_live
  obtain ⟨htake, htail, -⟩ := firstReaching_spec hs hnodup hsorted start
  have hdown := keyBelow_down start
  obtain ⟨ks1, ks2, q, hks, hlen, hq, hqdown, hloop, hend⟩ :=
    partsLoop_eq hs hnodup hsorted hl0 _ (h.parts.drop (h.firstReaching start))
    (List.take_append_drop (h.firstReaching start) h.parts).symm (upto_start start) hdown
    (fun d hd x hx => by
      obtain ⟨y, hy, hle⟩ := htake d hd
      exact (keyBelow_eq_true x).mpr
        ((((hfits d (mem_parts.mp (List.mem_of_mem_take hd)).1).inside x hx).2 y hy).trans_le hle))
    start (fun s _ x _ => rfl)
      (fun r hr x hx => decide_eq_false (not_lt_of_ge ((htail r hr).trans hx))) limit
  rw [Levels.scanPartitions, unsealedFrom_eq, hloop, Levels.scanned, hks, List.take_append,
    List.map_append, List.take_of_length_le hlen]
  dsimp only
  congr 1
  by_cases hfull : ks1.length = limit
  · rw [hfull, Nat.sub_self, List.take_zero, List.take_zero, List.map_nil, List.map_nil]
  -- past the partitions only unsealed keys are left, which no partition holds
  have hgone := hend.resolve_left hfull
  have hus : h.unsealedAt q = ks2 := by
    have hleft : h.unsealedAt q = h.unsealed.filter (fun x => !q x) :=
      (drop_placeOf pairwise_unsealed hqdown).1
    have hpair : (h.unsealedAt q).Pairwise (· < ·) :=
      pairwise_unsealed.sublist (List.drop_sublist _ _)
    have hperm : (h.unsealedAt q).Perm ks2 := by
      refine (List.perm_ext_iff_of_nodup (hpair.imp ne_of_lt) (hq.sorted.imp ne_of_lt)).mpr (fun x => ?_)
      rw [hleft, List.mem_filter, hq.mem, Bool.not_eq_true']
      refine ⟨fun hx => ⟨Or.inr hx.1, hx.2⟩, fun hx => ⟨hx.1.resolve_left (fun ⟨s, hsl, hxs⟩ => ?_), hx.2⟩⟩
      exact hgone x ((hq.mem x).mpr hx) s hsl hxs
    exact hperm.eq_of_pairwise (fun a b _ _ hab hba => absurd hab (lt_asymm hba)) hpair hq.sorted
  rw [hus]
  refine List.map_congr_left (fun k hk => ?_)
  have hkks := List.mem_of_mem_take hk
  have hun : k ∈ h.unsealed :=
    ((hq.mem k).mp hkks).1.resolve_left (fun ⟨s, hsl, hks⟩ => hgone k hkks s hsl hks)
  have hemit := emit_eq (h := h) (k := k) [1] (le_refl _)
    (fun c (hc : c ∈ ([] : List Cur)) => absurd hc List.not_mem_nil)
    (⟨fun _ => hun, fun _ => rfl⟩ : true = true ↔ _)
  have hone : (h.live.map (fun s => s.delta k)).prod = 1 := by
    refine List.prod_eq_one (fun d hd => ?_)
    obtain ⟨s, hsl, rfl⟩ := List.mem_map.mp hd
    exact Seg.delta_eq_one (hgone k hkks s hsl)
  rw [List.length_singleton, List.length_nil, Nat.add_zero, List.flatMap_singleton,
    Levels.scanSources, List.map_nil, List.nil_append,
    List.prod_append, List.prod_append, List.prod_singleton,
    List.prod_singleton, ← hone, ← leaves_eq_prod hs hnodup hsorted] at hemit
  rw [Levels.emitUnsealed, ← hemit, hone]
  simp only [cursorVals, List.zipIdx_nil, List.flatMap_nil, List.nil_append, Option.map_none,
    Option.getD_none, Delta.vals_one]

end Parts

/-! ## Scans of a run -/

/-- A key that nothing holds has nothing left. -/
lemma leaves_eq_one {h : Levels} {k : Bytes} (hs : Settled h.live h.queue) (hnodup : h.live.Nodup)
    (hsorted : h.live.Pairwise (fun s t => s.rank ≤ t.rank)) (hk : ¬ h.Held k) : h.leaves k
    = 1 := by
  obtain ⟨hlive, hun⟩ := not_or.mp hk
  obtain ⟨hfrozen, hmem⟩ := table_eq_one hun
  have hsegs : (h.live.map (fun s => s.delta k)).prod = 1 := by
    refine List.prod_eq_one (fun d hd => ?_)
    obtain ⟨s, hsl, rfl⟩ := List.mem_map.mp hd
    exact Seg.delta_eq_one (fun hks => hlive ⟨s, hsl, hks⟩)
  have htables : (h.sealing.map (fun j => recordsDelta j.table k)).prod = 1 := by
    refine List.prod_eq_one (fun d hd => ?_)
    obtain ⟨j, hj, rfl⟩ := List.mem_map.mp hd
    exact hfrozen j hj
  rw [leaves_eq_prod hs hnodup hsorted, hsegs, htables, hmem, one_mul, one_mul]

end Supdb

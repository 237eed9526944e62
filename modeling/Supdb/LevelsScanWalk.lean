import Supdb.Lib.Upto
import Supdb.LevelsScan

/-!
# What a scan hands out

At any point of a scan the keys taken lie below those left, and every cursor stands at its segment's
first key not taken. The key handed out next is the least any source stands on, and what is handed
out with it is what the state leaves it.

* `Cur.at` – a cursor at a point of a walk; `Cur.Stands`, what is so of it at the next key.
* `emit_eq` – what is handed out with a key, wherever its values start, is what the sources say of
  it together.
* **`scanCursors_eq`** – the merge of every cursor gives the keys held from the start on, each with
  what a read gives.
-/

namespace Supdb

open StorageLib

section Cursors

variable {s : Seg} {k x : Bytes} {p q : Bytes → Bool}

/-! ## Cursors -/

/-- What is taken when a key is next. -/
def keyBelow (k x : Bytes) : Bool := decide (x < k)

/-- What is taken once it is. -/
def keyUpto (k x : Bytes) : Bool := decide (x ≤ k)

lemma keyBelow_eq_true (x : Bytes) : keyBelow k x = true ↔ x < k := by
  rw [keyBelow, decide_eq_true_eq]

lemma keyBelow_down (k : Bytes) : ∀ x y, x < y → keyBelow k y = true → keyBelow k x = true :=
  fun x y hxy hy => (keyBelow_eq_true x).mpr (hxy.trans ((keyBelow_eq_true y).mp hy))

lemma keyUpto_eq_true (x : Bytes) : keyUpto k x = true ↔ x ≤ k := by rw [keyUpto, decide_eq_true_eq]

/-- A cursor at a point of a walk. -/
def Cur.upto (s : Seg) (p : Bytes → Bool) : Cur := ⟨s, placeOf s.keys p⟩

lemma Cur.upto_congr (h : ∀ x ∈ s.keys, p x = q x) : Cur.upto s p = Cur.upto s q := by
  rw [Cur.upto, Cur.upto, placeOf_congr h]

/-- **A cursor at the next key**: it stands on that key where its segment holds it, and below none.
-/
structure Cur.Stands (c : Cur) (k : Bytes) : Prop where
  key : c.key = some k ↔ k ∈ c.seg.keys
  least : ∀ x, c.key = some x → k ≤ x
  entry : c.key = some k → c.values = (c.seg.delta k).vals ∧ c.tomb = (c.seg.delta k).masks

/-- What an entry says of its key. -/
lemma delta_of_getElem? (hsorted : s.keys.Pairwise (· < ·)) {i : ℕ} {e : Entry}
    (he : s.entries[i]? = some e) : s.delta e.key = ⟨e.tomb, e.values⟩ := by
  have hmem := List.mem_of_getElem? he
  have hnodup : (s.entries.map Entry.key).Nodup := hsorted.imp ne_of_lt
  rw [Seg.delta, deltaIn]
  cases hfind : s.entries.find? (fun x => x.key = e.key) with
  | none =>
      rw [List.find?_eq_none] at hfind
      exact absurd (decide_eq_true rfl) (hfind e hmem)
  | some x =>
      have hx : x = e := List.inj_on_of_nodup_map hnodup (List.mem_of_find?_eq_some hfind) hmem
        (by simpa using List.find?_some hfind)
      rw [hx]

lemma Cur.stands_upto (hsorted : s.keys.Pairwise (· < ·)) (k : Bytes) :
    (Cur.upto s (keyBelow k)).Stands k where
  key := getElem?_placeOf_lt hsorted keyBelow_eq_true
  least _ hx := le_getElem?_placeOf hsorted keyBelow_eq_true hx
  entry hk := by
    rw [Cur.key, Seg.keys, List.getElem?_map, Option.map_eq_some_iff] at hk
    obtain ⟨e, he, rfl⟩ := hk
    rw [Cur.values, Cur.tomb, he, show (Cur.upto s _).seg = s from rfl,
      delta_of_getElem? hsorted he]
    exact ⟨rfl, rfl⟩

/-- **A cursor past the key.** -/
lemma Cur.advance_upto (hsorted : s.keys.Pairwise (· < ·)) (k : Bytes) :
    (if (Cur.upto s (keyBelow k)).key = some k then (Cur.upto s (keyBelow k)).advance else Cur.upto
      s (keyBelow k)) = Cur.upto s (keyUpto k) := by
  have hplace := placeOf_le hsorted (k := k) keyBelow_eq_true keyUpto_eq_true
  have hkey := (Cur.stands_upto hsorted k).key
  by_cases hk : k ∈ s.keys
  · rw [if_pos hk] at hplace
    rw [if_pos (hkey.mpr hk), Cur.upto, Cur.upto, hplace]
    rfl
  · rw [if_neg hk, Nat.add_zero] at hplace
    rw [if_neg (fun h => hk (hkey.mp h)), Cur.upto, Cur.upto, hplace]

lemma advancePast_upto {segs : List Seg} (hsorted : ∀ s ∈ segs, s.keys.Pairwise (· < ·))
    (k : Bytes) :
    advancePast (segs.map (fun s => Cur.upto s (keyBelow k))) k
    = segs.map (fun s => Cur.upto s (keyUpto k)) := by
  rw [advancePast, List.map_map]
  exact List.map_congr_left (fun s hs => Cur.advance_upto (hsorted s hs) k)

/-- **A cursor sought** to a scan's start. -/
lemma Seg.Fits.cursorAt (hs : s.Fits) (start : Bytes) :
    s.cursorAt start = Cur.upto s (keyBelow start) := by
  have hseek : s.cursorAt start = Cur.upto s (keyBelow (s.cursorFrom start)) := by
    rw [Seg.cursorAt, Seg.seek, seekIn, Cur.upto]
    congr 1
    refine (partitionPoint_placeOf hs.sorted keyBelow_eq_true (le_refl _) (Nat.zero_le _)
      (Nat.zero_le _)).trans ?_
    exact min_eq_left (List.length_filter_le _ _)
  rw [hseek]
  refine Cur.upto_congr (fun x hx => ?_)
  rw [Seg.cursorFrom]
  split_ifs with hlo
  · -- below the fence the segment holds nothing
    have hle := (hs.inside x hx).1
    rw [keyBelow, keyBelow, decide_eq_false (not_lt_of_ge hle),
      decide_eq_false (not_lt_of_ge (hlo.2.le.trans hle))]
  · rfl

/-- A segment that does not reach the start holds nothing from it on. -/
lemma Seg.Fits.lt_of_mayReach (hs : s.Fits) {start : Bytes} (hno : s.mayReach start = false)
    (hx : x ∈ s.keys) : x < start := by
  rw [Seg.mayReach, Option.all_eq_false] at hno
  obtain ⟨hi, hhi, hle⟩ := hno
  exact ((hs.inside x hx).2 hi hhi).trans_le (not_lt.mp (of_decide_eq_false hle))

/-! ## The next key -/

lemma foldl_lesserKey_none {keys : List (Option Bytes)} {next : Option Bytes}
    (h : ∀ x ∈ keys, x = none) : keys.foldl lesserKey next = next := by
  induction keys generalizing next with
  | nil => rfl
  | cons x keys ih =>
      obtain ⟨rfl, hrest⟩ := List.forall_mem_cons.mp h
      exact ih hrest

/-- Where no source stands on a key there is none. -/
lemma nextKey_none {keys : List (Option Bytes)} (h : ∀ x ∈ keys, x = none) : nextKey keys = none :=
  foldl_lesserKey_none h

/-- **The next key** is the least any source stands on. -/
lemma nextKey_eq {keys : List (Option Bytes)} (hmem : some k ∈ keys)
    (hleast : ∀ x, some x ∈ keys → k ≤ x) : nextKey keys = some k := by
  have hkeep : ∀ (l : List (Option Bytes)), (∀ x, some x ∈ l → k ≤ x) →
    l.foldl lesserKey (some k) = some k := by
    intro l hl
    induction l with
    | nil => rfl
    | cons x l ih =>
        rw [List.foldl_cons]
        have hstep : lesserKey (some k) x = some k := by
          cases x with
          | none => rfl
          | some x =>
              have hle := hl x List.mem_cons_self
              simp only [lesserKey, Option.all_some, decide_eq_true_eq, if_neg (not_lt_of_ge hle)]
        rw [hstep]
        exact ih (fun y hy => hl y (List.mem_cons_of_mem _ hy))
  have hgen : ∀ (l : List (Option Bytes)) (next : Option Bytes), some k ∈ l →
      (∀ x, some x ∈ l → k ≤ x) → (∀ x ∈ next, k ≤ x) → l.foldl lesserKey next = some k := by
    intro l
    induction l with
    | nil => exact fun _ h => absurd h List.not_mem_nil
    | cons x l ih =>
        intro next hk hl hnext
        have hrest : ∀ y, some y ∈ l → k ≤ y := fun y hy => hl y (List.mem_cons_of_mem _ hy)
        rw [List.foldl_cons]
        by_cases hxk : x = some k
        · have hstep : lesserKey next x = some k := by
            rw [hxk]
            cases next with
            | none => rfl
            | some y =>
                rcases lt_or_eq_of_le (hnext y rfl) with hlt | rfl
                · simp only [lesserKey, Option.all_some, decide_eq_true_eq, if_pos hlt]
                · simp only [lesserKey, Option.all_some, decide_eq_true_eq, lt_irrefl, if_false]
          rw [hstep]
          exact hkeep l hrest
        · refine ih _ ((List.mem_cons.mp hk).resolve_left (Ne.symm hxk)) hrest (fun y hy => ?_)
          cases x with
          | none => exact hnext y hy
          | some x =>
              simp only [lesserKey] at hy
              split_ifs at hy with hlt
              · rw [← Option.some.inj hy]
                exact hl x List.mem_cons_self
              · exact hnext y hy
  exact hgen keys none hmem hleast (fun x hx => absurd hx (Option.not_mem_none x))

end Cursors

/-! ## What is handed out with a key -/

section Emit

variable {h : Levels} {k : Bytes} {cs : List Cur} {inUnsealed : Bool}

lemma mem_unsealed : k ∈ h.unsealed ↔ ∃ r ∈ h.sealing.flatMap FrozenTable.table ++ h.mem,
    r.key = k := mem_slotsInKeyOrder

/-- Where a key is unsealed nowhere, no table says anything of it. -/
lemma table_eq_one (hun : k ∉ h.unsealed) : (∀ j ∈ h.sealing, recordsDelta j.table k = 1) ∧
    recordsDelta h.mem k = 1 := by
  constructor
  · intro j hj
    refine recordsDelta_eq_one
      (fun r hr hk => hun (mem_unsealed.mpr ⟨r, List.mem_append_left _ ?_, hk⟩))
    exact List.mem_flatMap.mpr ⟨j, hj, hr⟩
  · exact recordsDelta_eq_one
      (fun r hr hk => hun (mem_unsealed.mpr ⟨r, List.mem_append_right _ hr, hk⟩))

/-- What is handed out with a key comes from: some before the cursors, the cursors, the frozen
tables and the live one. -/
def Levels.scanSources (h : Levels) (pre : List (Delta Bytes)) (cs : List Cur) (k : Bytes) :
    List (Delta Bytes) :=
  pre ++
    (cs.map (fun c => c.seg.delta k) ++
    (h.sealing.map (fun j => recordsDelta j.table k) ++ [recordsDelta h.mem k]))

/-- **Where a key's values start.** -/
lemma scanStart_spec (pre : List (Delta Bytes)) (hpre : pre.length ≤ 1)
    (hcs : ∀ c ∈ cs, c.Stands k ∧ c.seg ∈ h.live)
    (hun : inUnsealed = true ↔ k ∈ h.unsealed) : StartsAt (h.scanSources pre cs k)
    (h.scanStart pre.length cs inUnsealed k) := by
  rw [Levels.scanStart]
  split_ifs with htomb
  · -- no tombstone anywhere
    rw [Bool.not_eq_true'] at htomb
    refine StartsAt.unmasked pre hpre (by simp) (fun e he => ?_)
    have hnewer := masks_newer (k := k) htomb (cs.map Cur.seg)
      (fun s hs => by obtain ⟨c, hc, rfl⟩ := List.mem_map.mp hs; exact (hcs c hc).2)
    rw [List.map_map] at hnewer
    exact hnewer e he
  · have hcur : cs.map (fun c => c.seg.tombs && decide (c.key = some k) && c.tomb)
        = (cs.map (fun c => c.seg.delta k)).map Delta.masks := by
      rw [List.map_map]
      refine List.map_congr_left (fun c hc => ?_)
      rw [Function.comp_apply]
      obtain ⟨hstands, -⟩ := hcs c hc
      by_cases hk : c.key = some k
      · rw [(hstands.entry hk).2, decide_eq_true hk, Bool.and_true]
        cases hmasks : (c.seg.delta k).masks with
        | false => rw [Bool.and_false]
        | true => rw [(Seg.masks_delta hmasks).1, Bool.and_true]
      · rw [decide_eq_false hk, Bool.and_false, Bool.false_and,
          Seg.delta_eq_one (fun hmem => hk (hstands.key.mpr hmem)), Delta.masks_one]
    have htables : h.sealing.map (fun j => inUnsealed && (recordsDelta j.table k).masks)
        = (h.sealing.map (fun j => recordsDelta j.table k)).map Delta.masks ∧
          (inUnsealed && (recordsDelta h.mem k).masks) = (recordsDelta h.mem k).masks := by
      cases hin : inUnsealed with
      | true => exact ⟨by rw [List.map_map]; rfl, rfl⟩
      | false =>
          obtain ⟨hfrozen, hmem⟩ := table_eq_one (h := h) (k := k) (fun hmem => by simp [hun.mpr hmem] at hin)
          rw [hmem, List.map_map]
          exact ⟨List.map_congr_left (fun j hj => by rw [Function.comp_apply, hfrozen j hj]; rfl), rfl⟩
    rw [hcur, htables.1, htables.2]
    exact StartsAt.three pre hpre _ _ _

/-- **What is handed out with a key** is what the sources say of it together. -/
lemma emit_eq (pre : List (Delta Bytes)) (hpre : pre.length ≤ 1)
    (hcs : ∀ c ∈ cs, c.Stands k ∧ c.seg ∈ h.live) (hun : inUnsealed = true ↔ k ∈ h.unsealed) :
    (if h.scanStart pre.length cs inUnsealed k = 0 then pre.flatMap Delta.vals else []) ++
        (cursorVals cs k pre.length (h.scanStart pre.length cs inUnsealed k) ++
          h.tableVals inUnsealed k (pre.length + cs.length) (h.scanStart pre.length cs inUnsealed k))
      = (h.scanSources pre cs k).prod.vals := by
  have hat := scanStart_spec pre hpre hcs hun
  set start := h.scanStart pre.length cs inUnsealed k
  have hcur : cursorVals cs k pre.length start = (cs.drop (start - pre.length)).flatMap
    (fun c => (c.seg.delta k).vals) := by
    rw [cursorVals, flatMap_zipIdx_drop (fun c : Cur => if c.key = some k then c.values else []) cs
      pre.length start]
    refine List.flatMap_congr (fun c hc => ?_)
    obtain ⟨hstands, -⟩ := hcs c (List.mem_of_mem_drop hc)
    split_ifs with hk
    · exact (hstands.entry hk).1
    · rw [Seg.delta_eq_one (fun hmem => hk (hstands.key.mpr hmem)), Delta.vals_one]
  have htables : h.tableVals inUnsealed k (pre.length + cs.length) start
      = (h.sealing.drop (start - (pre.length + cs.length))).flatMap
          (fun j => (recordsDelta j.table k).vals) ++ (recordsDelta h.mem k).vals := by
    rw [Levels.tableVals]
    split_ifs with hin
    · rw [flatMap_zipIdx_drop (fun j : FrozenTable => (recordsDelta j.table k).vals) h.sealing]
    · obtain ⟨hfrozen, hmem⟩ := table_eq_one (h := h) (k := k) (fun hmem => hin (hun.mpr hmem))
      have hnone : ∀ l : List FrozenTable, (∀ j ∈ l, j ∈ h.sealing) →
        l.flatMap (fun j => (recordsDelta j.table k).vals) = [] := by
        intro l hl
        rw [List.flatMap_eq_nil_iff]
        intro j hj
        rw [hfrozen j (hl j hj), Delta.vals_one]
      rw [hnone _ (fun j hj => List.mem_of_mem_drop hj), hmem, Delta.vals_one, List.nil_append]
  rw [hat.vals, Levels.scanSources, flatMap_drop_three pre hpre hat.lt, hcur, htables,
    List.length_map, ← List.map_drop, ← List.map_drop, List.flatMap_map, List.flatMap_map]

end Emit

/-! ## What is held -/

namespace Levels

/-- Whether a segment or a table holds a key. -/
def Held (h : Levels) (k : Bytes) : Prop := (∃ s ∈ h.live, k ∈ s.keys) ∨ k ∈ h.unsealed

/-- The keys that some segment or table holds, in order. -/
def heldKeys (h : Levels) : List Bytes :=
  ((h.live.flatMap Seg.keys ++ h.unsealed).dedup).insertionSort (· ≤ ·)

/-- **What a scan is to hand out**: the first keys held from its start on, each with what the state
leaves it. -/
def scanned (h : Levels) (start : Bytes) (limit : ℕ) : List (Bytes × List Bytes) :=
  ((h.heldKeys.filter (fun x => decide (start ≤ x))).take limit).map
    (fun k => (k, (h.leaves k).vals))

end Levels

section Held

variable {h : Levels} {k : Bytes}

lemma mem_heldKeys : k ∈ h.heldKeys ↔ h.Held k := by
  rw [Levels.heldKeys, List.mem_insertionSort, List.mem_dedup, List.mem_append, List.mem_flatMap,
    Levels.Held]

lemma pairwise_heldKeys : h.heldKeys.Pairwise (· < ·) := by
  have hle : h.heldKeys.Pairwise (· ≤ ·) := List.pairwise_insertionSort _ _
  have hne : h.heldKeys.Pairwise (· ≠ ·) :=
    (List.perm_insertionSort _ _).nodup_iff.mpr (List.nodup_dedup _)
  exact hle.imp₂ (fun _ _ h1 h2 => lt_of_le_of_ne h1 h2) hne

/-- A scan's walk, at its start. -/
lemma upto_start (start : Bytes) :
    Upto h.Held (keyBelow start) (h.heldKeys.filter (fun x => decide (start ≤ x))) :=
  Upto.start pairwise_heldKeys (fun _ => mem_heldKeys) keyBelow_eq_true
    (fun _ => decide_eq_true_iff)

/-- What the state leaves a key, segment by segment. -/
lemma leaves_eq_prod (hs : Settled h.live h.queue) (hnodup : h.live.Nodup)
    (hsorted : h.live.Pairwise (fun s t => s.rank ≤ t.rank)) (k : Bytes) :
    h.leaves k = (h.live.map (·.delta k)).prod *
      ((h.sealing.map (fun j => recordsDelta j.table k)).prod * recordsDelta h.mem k) := by
  rw [Levels.leaves, saysOf_eq_prod hs hnodup hsorted, mul_assoc]

/-! ## The unsealed keys -/

lemma pairwise_unsealed : h.unsealed.Pairwise (· < ·) := pairwise_slotsInKeyOrder _

/-- The unsealed keys left at a point of a walk. -/
def Levels.unsealedAt (h : Levels) (p : Bytes → Bool) : List Bytes :=
  h.unsealed.drop (placeOf h.unsealed p)

lemma unsealedAt_congr {p q : Bytes → Bool} (hpq : ∀ x ∈ h.unsealed, p x = q x) :
    h.unsealedAt p = h.unsealedAt q := by
  rw [Levels.unsealedAt, Levels.unsealedAt, placeOf_congr hpq]

lemma unsealedFrom_eq (start : Bytes) : h.unsealedFrom start = h.unsealedAt (keyBelow start) := by
  rw [Levels.unsealedFrom, Levels.unsealedAt, seekIn]
  congr 1
  refine (partitionPoint_placeOf pairwise_unsealed keyBelow_eq_true (le_refl _) (Nat.zero_le _)
    (Nat.zero_le _)).trans ?_
  exact min_eq_left (List.length_filter_le _ _)

/-- **The unsealed keys at the next key**: it is the first where it is one of them, and the rest are
behind it. -/
lemma unsealedAt_below (k : Bytes) :
    (decide ((h.unsealedAt (keyBelow k)).head? = some k) = true ↔ k ∈ h.unsealed) ∧
      (∀ x, (h.unsealedAt (keyBelow k)).head? = some x → k ≤ x) ∧
      (if decide ((h.unsealedAt (keyBelow k)).head? = some k)
      = true then (h.unsealedAt (keyBelow k)).tail
        else h.unsealedAt (keyBelow k)) = h.unsealedAt (keyUpto k) := by
  have hhead : (h.unsealedAt (keyBelow k)).head? = h.unsealed[placeOf h.unsealed (keyBelow k)]? :=
    List.head?_drop
  have hmem : (h.unsealedAt (keyBelow k)).head? = some k ↔ k ∈ h.unsealed := by
    rw [hhead]
    exact getElem?_placeOf_lt pairwise_unsealed keyBelow_eq_true
  have hplace := placeOf_le (pairwise_unsealed (h := h)) (k := k) keyBelow_eq_true keyUpto_eq_true
  refine ⟨by rw [decide_eq_true_eq, hmem], fun x hx => ?_, ?_⟩
  · rw [hhead] at hx
    exact le_getElem?_placeOf pairwise_unsealed keyBelow_eq_true hx
  · by_cases hk : k ∈ h.unsealed
    · rw [if_pos (decide_eq_true (hmem.mpr hk)), Levels.unsealedAt, Levels.unsealedAt, hplace,
        if_pos hk, List.tail_drop]
    · rw [if_neg (fun hyes => hk (hmem.mp (of_decide_eq_true hyes))), Levels.unsealedAt,
        Levels.unsealedAt, hplace, if_neg hk, Nat.add_zero]

end Held

/-! ## Every cursor -/

section Cursors

variable {h : Levels}

/-- **The merge of every cursor from any point.**  Of a segment it has no cursor over everything is
taken. -/
lemma cursorsLoop_eq (hs : Settled h.live h.queue) (hnodup : h.live.Nodup)
    (hsorted : h.live.Pairwise (fun s t => s.rank ≤ t.rank)) (f : Seg → Bool) (ks : List Bytes)
    {p : Bytes → Bool} (hp : Upto h.Held p ks)
    (hout : ∀ s ∈ h.live, f s = false → ∀ x ∈ s.keys, p x = true) (n : ℕ) :
    h.cursorsLoop n ((h.live.filter f).map (fun s => Cur.upto s p)) (h.unsealedAt p)
      = (ks.take n).map (fun k => (k, (h.leaves k).vals)) := by
  have hfits := hs.fits_live
  induction ks generalizing p n with
  | nil =>
      cases n with
      | zero => rfl
      | succ n =>
          have htaken : ∀ x, h.Held x → p x = true := by
            intro x hx
            by_contra hleft
            exact absurd ((hp.mem x).mpr ⟨hx, Bool.eq_false_of_not_eq_true hleft⟩) List.not_mem_nil
          have hend : ∀ l : List Bytes, (∀ x ∈ l, h.Held x) → placeOf l p = l.length := by
            intro l hl
            rw [placeOf, List.filter_eq_self.mpr (fun x hx => htaken x (hl x hx))]
          have hnone :
            nextKey (((h.live.filter f).map (fun s => Cur.upto s p)).map Cur.key ++
            [(h.unsealedAt p).head?]) = none := by
            refine nextKey_none (fun x hx => ?_)
            rcases List.mem_append.mp hx with hx | hx
            · rw [List.map_map] at hx
              obtain ⟨s, hsf, rfl⟩ := List.mem_map.mp hx
              have hsl := List.mem_of_mem_filter hsf
              rw [Function.comp_apply, Cur.key, Cur.upto, hend _ (fun x hx => Or.inl ⟨s, hsl, hx⟩),
                List.getElem?_eq_none (le_refl _)]
            · rw [List.mem_singleton.mp hx, Levels.unsealedAt, hend _ (fun x hx => Or.inr hx),
                List.drop_length, List.head?_nil]
          rw [Levels.cursorsLoop, hnone, List.take_nil, List.map_nil]
  | cons k ks ih =>
      cases n with
      | zero => rfl
      | succ n =>
          have hpk : ∀ x, h.Held x → p x = keyBelow k x := by
            intro x hx
            rw [Bool.eq_iff_iff, hp.at_head hx, keyBelow_eq_true]
          have hcur : (h.live.filter f).map (fun s => Cur.upto s p)
            = (h.live.filter f).map (fun s => Cur.upto s (keyBelow k)) :=
            List.map_congr_left (fun s hsf =>
              Cur.upto_congr (fun x hx => hpk x (Or.inl ⟨s, List.mem_of_mem_filter hsf, hx⟩)))
          have hun : h.unsealedAt p = h.unsealedAt (keyBelow k) := unsealedAt_congr (fun x hx => hpk x (Or.inr hx))
          obtain ⟨hin, hleast, hrest⟩ := unsealedAt_below (h := h) k
          have hstands : ∀ c ∈ (h.live.filter f).map (fun s => Cur.upto s (keyBelow k)),
            c.Stands k ∧ c.seg ∈ h.live := by
            intro c hc
            obtain ⟨s, hsf, rfl⟩ := List.mem_map.mp hc
            have hsl := List.mem_of_mem_filter hsf
            exact ⟨Cur.stands_upto (hfits s hsl).sorted k, hsl⟩
          have hleft : p k = false := ((hp.mem k).mp List.mem_cons_self).2
          have hnext : nextKey (((h.live.filter f).map (fun s => Cur.upto s (keyBelow k))).map Cur.key ++
              [(h.unsealedAt (keyBelow k)).head?]) = some k := by
            refine nextKey_eq ?_ (fun x hx => ?_)
            · rcases hp.held_head with ⟨s, hsl, hks⟩ | hku
              · refine List.mem_append_left _ (List.mem_map.mpr ⟨Cur.upto s (keyBelow k), List.mem_map_of_mem ?_, ?_⟩)
                · refine List.mem_filter.mpr ⟨hsl, ?_⟩
                  by_contra hno
                  have htaken := hout s hsl (Bool.eq_false_of_not_eq_true hno) k hks
                  rw [hleft] at htaken
                  exact absurd htaken (by simp)
                · exact (Cur.stands_upto (hfits s hsl).sorted k).key.mpr hks
              · exact List.mem_append_right _ (by rw [of_decide_eq_true (hin.mpr hku)]; exact List.mem_singleton_self _)
            · rcases List.mem_append.mp hx with hx | hx
              · obtain ⟨c, hc, hck⟩ := List.mem_map.mp hx
                exact (hstands c hc).1.least x hck
              · exact hleast x (List.mem_singleton.mp hx).symm
          have hprod :
            (h.scanSources [] ((h.live.filter f).map (fun s => Cur.upto s (keyBelow k))) k).prod
            = h.leaves k := by
            rw [leaves_eq_prod hs hnodup hsorted, Levels.scanSources, List.nil_append,
              List.prod_append, List.prod_append, List.prod_singleton, List.map_map]
            congr 1
            refine prod_filter_of_one _ _ (fun s hsl hno => Seg.delta_eq_one (fun hks => ?_))
            have htaken := hout s hsl hno k hks
            rw [hleft] at htaken
            exact absurd htaken (by simp)
          have hemit := emit_eq [] (Nat.zero_le 1) hstands hin
          rw [List.flatMap_nil, ite_self, List.nil_append, List.length_nil, Nat.zero_add, hprod] at hemit
          rw [hcur, hun, Levels.cursorsLoop, hnext]
          dsimp only
          rw [hemit, hrest,
            advancePast_upto (fun s hsf => (hfits s (List.mem_of_mem_filter hsf)).sorted),
            List.take_succ_cons, List.map_cons]
          congr 1
          refine ih (hp.next keyUpto_eq_true) (fun s hsl hno x hx => ?_) n
          exact (keyUpto_eq_true x).mpr (hp.below x k (hout s hsl hno x hx) List.mem_cons_self).le

/-- **The merge of every cursor** hands out what is held from the start on. -/
theorem scanCursors_eq (hs : Settled h.live h.queue) (hnodup : h.live.Nodup)
    (hsorted : h.live.Pairwise (fun s t => s.rank ≤ t.rank)) (start : Bytes) (limit : ℕ) :
    h.scanCursors start limit = h.scanned start limit := by
  have hfits := hs.fits_live
  have hat : (h.live.filter (·.mayReach start)).map (·.cursorAt start)
      = (h.live.filter (·.mayReach start)).map (fun s => Cur.upto s (keyBelow start)) :=
    List.map_congr_left (fun s hsf => (hfits s (List.mem_of_mem_filter hsf)).cursorAt start)
  rw [Levels.scanCursors, hat, unsealedFrom_eq]
  refine cursorsLoop_eq hs hnodup hsorted _ _ (upto_start start) (fun s hsl hno x hx => ?_) limit
  exact (keyBelow_eq_true x).mpr ((hfits s hsl).lt_of_mayReach hno hx)

end Cursors

end Supdb

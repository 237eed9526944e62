import Supdb.ZFence

/-!
# The fence's searches agree

For keys in order, the entry a key's records fall among is the last whose key is at or below it.
The three searches of a fence find it, each its own way.
-/

namespace Supdb

open StorageLib

/-- `r` is the greatest entry whose key is at or below `q`, nothing where every key is above it. -/
def EntryFor (ks : List Bytes) (q : Bytes) : Option ℕ → Prop
  | none => ∀ k ∈ ks, q < k
  | some i => ∃ h : i < ks.length, ks[i] ≤ q ∧ ∀ (j : ℕ) (hj : j < ks.length), i < j → q < ks[j]

lemma EntryFor.unique {ks : List Bytes} {q : Bytes} {r s : Option ℕ} (hr : EntryFor ks q r)
    (hs : EntryFor ks q s) : r = s := by
  have hnone : ∀ i, EntryFor ks q none → ¬ EntryFor ks q (some i) := by
    rintro i h ⟨hi, hle, -⟩
    exact absurd (h _ (List.getElem_mem hi)) (not_lt_of_ge hle)
  cases r with
  | none =>
      cases s with
      | none => rfl
      | some i => exact absurd hs (hnone i hr)
  | some i =>
      cases s with
      | none => exact absurd hr (hnone i hs)
      | some j =>
          obtain ⟨hi, hile, hiabove⟩ := hr
          obtain ⟨hj, hjle, hjabove⟩ := hs
          rcases lt_trichotomy i j with h | rfl | h
          · exact absurd (hiabove j hj h) (not_lt_of_ge hjle)
          · rfl
          · exact absurd (hjabove i hi h) (not_lt_of_ge hile)

namespace ZFence

/-- The fence's entries have the keys `ks`: the offsets cut the blob into them. -/
structure Holds (f : ZFence) (ks : List Bytes) : Prop where
  ranks : f.firstRank.length = ks.length
  pages : f.page.length = ks.length
  offs : f.keyOff.map UInt32.toNat
    = (List.range (ks.length + 1)).map (fun i => (ks.take i).flatten.length)
  blob : f.keys = ks.flatten
  fits : ks.flatten.length < 2 ^ 32

lemma holds_new : new.Holds [] := by
  refine ⟨rfl, rfl, ?_, rfl, by norm_num⟩
  decide

/-- An entry added has the key it was added with. -/
lemma Holds.push {f g : ZFence} {ks : List Bytes} (h : f.Holds ks) {rank page : UInt32}
    {key : Bytes} (hpush : f.push rank page key = .ok g) : g.Holds (ks ++ [key]) := by
  rw [ZFence.push] at hpush
  split_ifs at hpush with hfit
  rw [Except.ok.injEq] at hpush
  subst hpush
  have hlen : (ks ++ [key]).flatten.length = f.keys.length + key.length := by
    rw [h.blob, List.flatten_append, List.length_append, List.flatten_singleton]
  refine ⟨by simp [h.ranks], by simp [h.pages], ?_, by simp [h.blob], by omega⟩
  have hkeep : (List.range (ks.length + 1)).map (fun i => ((ks ++ [key]).take i).flatten.length)
      = (List.range (ks.length + 1)).map (fun i => (ks.take i).flatten.length) := by
    refine List.map_congr_left ?_
    intro i hi
    rw [List.take_append_of_le_length (by have := List.mem_range.mp hi; omega)]
  have hlast : ((ks ++ [key]).take (ks.length + 1)).flatten.length
    = f.keys.length + key.length := by
    rw [List.take_of_length_le (by simp), hlen]
  have hrange : List.range (ks.length + 1 + 1) = List.range (ks.length + 1) ++ [ks.length + 1] :=
    List.range_succ
  rw [List.map_append, h.offs, List.length_append, List.length_singleton, hrange, List.map_append,
    hkeep, List.map_singleton, List.map_singleton, hlast, UInt32.toNat_ofNat',
    Nat.mod_eq_of_lt hfit]

section Searches

variable {f : ZFence} {ks : List Bytes}

lemma Holds.len (h : f.Holds ks) : f.len = ks.length := h.ranks

lemma Holds.bare (h : f.Holds ks) : f.bare.Holds ks := ⟨h.ranks, h.pages, h.offs, h.blob, h.fits⟩

lemma flatten_split {i : ℕ} (hi : i < ks.length) :
    ks.flatten = (ks.take i).flatten ++ (ks[i] ++ (ks.drop (i + 1)).flatten) := by
  conv_lhs => rw [← List.take_append_drop i ks, List.drop_eq_getElem_cons hi]
  rw [List.flatten_append, List.flatten_cons]

/-- **An entry's key.** -/
lemma Holds.key (h : f.Holds ks) (i : ℕ) : f.key i = ks[i]? := by
  have hoff : ∀ j, (f.keyOff[j]?).map UInt32.toNat
      = if j < ks.length + 1 then some (ks.take j).flatten.length else none := by
    intro j
    rw [← List.getElem?_map, h.offs, List.getElem?_map]
    split_ifs with hj
    · rw [List.getElem?_range hj, Option.map_some]
    · rw [List.getElem?_eq_none (by simpa using hj), Option.map_none]
  have h0 := hoff i
  have h1 := hoff (i + 1)
  rw [ZFence.key]
  by_cases hi : i < ks.length
  · rw [if_pos (by omega)] at h0 h1
    obtain ⟨a, ha, hat⟩ := Option.map_eq_some_iff.mp h0
    obtain ⟨b, hb, hbt⟩ := Option.map_eq_some_iff.mp h1
    have hsucc : (ks.take (i + 1)).flatten = (ks.take i).flatten ++ ks[i] := by
      rw [List.take_add_one, List.getElem?_eq_getElem hi, List.flatten_append]
      simp
    rw [ha, hb, List.getElem?_eq_getElem hi]
    simp only [Option.bind_eq_bind, Option.bind_some]
    rw [h.blob, flatten_split hi]
    exact getRange_append_mid hat (by rw [hbt, hsucc, List.length_append])
  · rw [if_neg (by omega)] at h1
    have hnone : ks[i]? = none := List.getElem?_eq_none (by omega)
    rw [Option.map_eq_none_iff.mp h1, hnone]
    cases f.keyOff[i]? with
    | none => rfl
    | some a => rfl

lemma Holds.key_lt (h : f.Holds ks) {i : ℕ} (hi : i < ks.length) : f.key i = some ks[i] := by
  rw [h.key, List.getElem?_eq_getElem hi]

/-! ## Comparing with an entry's key -/

lemma keyCmp_ne_gt (a b : Bytes) : keyCmp a b ≠ .gt ↔ a ≤ b := by
  rw [keyCmp_eq]
  rcases lt_trichotomy a b with h | rfl | h
  · rw [cmp_of_lt h]
    exact iff_of_true (by simp) h.le
  · rw [cmp_of_eq]
    exact iff_of_true (by simp) le_rfl
  · rw [cmp_of_gt h]
    exact iff_of_false (by simp) (not_le_of_gt h)

/-- No empty key is read, and none needs to be. -/
lemma atOrBelow_iff (k key : Bytes) : atOrBelow k key = true ↔ k ≤ key := by
  rw [atOrBelow, decide_eq_true_eq, keyCmp_ne_gt]
  constructor
  · rintro (rfl | h)
    · exact nil_le _
    · exact h
  · exact Or.inr

lemma searchBelow_iff (k key : Bytes) :
    (if k = [] then true else if key = [] then false else decide (keyCmp k key ≠ .gt)) = true ↔
    k ≤ key := by
  split_ifs with hk hkey
  · exact iff_of_true rfl (by rw [hk]; exact nil_le _)
  · refine iff_of_false (by simp) ?_
    rw [hkey]
    intro hle
    exact hk (le_antisymm hle (nil_le _))
  · rw [decide_eq_true_eq, keyCmp_ne_gt]

/-- How many entries have their key at or below `q`. -/
def atMost (ks : List Bytes) (q : Bytes) : ℕ := (ks.filter (· ≤ q)).length

lemma atMost_le (q : Bytes) : atMost ks q ≤ ks.length := List.length_filter_le _ _

lemma le_iff_lt_atMost (hsorted : ks.Pairwise (· < ·)) (q : Bytes) (i : ℕ) (hi : i < ks.length) :
    ks[i] ≤ q ↔ i < atMost ks q :=
  le_iff_lt_length_filter hsorted (fun _ => decide_eq_true_iff) i hi

/-- The last of them is the entry. -/
lemma entryFor_atMost (hsorted : ks.Pairwise (· < ·)) (q : Bytes) :
    EntryFor ks q (if atMost ks q = 0 then none else some (atMost ks q - 1)) := by
  have hle := @atMost_le ks q
  split_ifs with h0
  · intro k hk
    obtain ⟨i, hi, rfl⟩ := List.mem_iff_getElem.mp hk
    rw [← not_le, le_iff_lt_atMost hsorted q i hi]
    omega
  · refine ⟨by omega, (le_iff_lt_atMost hsorted q _ (by omega)).mpr (by omega), ?_⟩
    intro j hj hij
    rw [← not_le, le_iff_lt_atMost hsorted q j hj]
    omega

/-! ## Halving over the keys -/

/-- What halves a range of the keys down to nothing finds the partition point. -/
lemma halving_eq {search : ℕ → ℕ → Option ℕ} {key : Bytes} {lo hi : ℕ} (hhi : hi ≤ ks.length)
    (hgo : ∀ lo hi m, lo < hi → m = (lo + hi) / 2 → (hm : m < ks.length) →
      search lo hi = if ks[m] ≤ key then search (m + 1) hi else search lo m)
    (hstop : ∀ lo hi, ¬ lo < hi → search lo hi = some lo) :
    search lo hi = some (partitionPoint (fun i => decide (ks.getD i [] ≤ key)) lo hi) := by
  fun_induction partitionPoint (fun i => decide (ks.getD i [] ≤ key)) lo hi with
  | case1 lo hi hlt hmid ih =>
      rw [List.getD_eq_getElem _ _ (by omega), decide_eq_true_eq] at hmid
      rw [hgo lo hi _ hlt rfl (by omega), if_pos hmid]
      exact ih hhi
  | case2 lo hi hlt hmid ih =>
      rw [List.getD_eq_getElem _ _ (by omega), decide_eq_true_eq] at hmid
      rw [hgo lo hi _ hlt rfl (by omega), if_neg hmid]
      exact ih (by omega)
  | case3 lo hi hge => exact hstop lo hi hge

lemma searchLoop_eq (h : f.Holds ks) (key : Bytes) {lo hi : ℕ} (hhi : hi ≤ ks.length) :
    f.searchLoop key lo hi
    = some (partitionPoint (fun i => decide (ks.getD i [] ≤ key)) lo hi) := by
  refine halving_eq hhi (fun lo hi m hlt hm hin => ?_) (fun lo hi hge => ?_)
  · rw [searchLoop, if_pos hlt, (by omega : lo + (hi - lo) / 2 = m), h.key_lt hin]
    exact if_congr (searchBelow_iff _ key) rfl rfl
  · rw [searchLoop, if_neg hge]

lemma betweenLoop_eq (h : f.Holds ks) (key : Bytes) {a b : ℕ} (hb : b ≤ ks.length) :
    f.betweenLoop key a b = some (partitionPoint (fun i => decide (ks.getD i [] ≤ key)) a b) := by
  refine halving_eq hb (fun a b m hlt hm hin => ?_) (fun a b hge => ?_)
  · rw [betweenLoop, if_pos hlt, (by omega : a + (b - a) / 2 = m), h.key_lt hin]
    exact if_congr (atOrBelow_iff _ key) rfl rfl
  · rw [betweenLoop, if_neg hge]

/-- The halving finds how many keys are at or below, in any range that holds the number. -/
lemma partitionPoint_atMost (hsorted : ks.Pairwise (· < ·)) (key : Bytes) {lo hi : ℕ}
    (hlo : lo ≤ atMost ks key) (hhi : atMost ks key ≤ hi) (hn : hi ≤ ks.length) :
    partitionPoint (fun i => decide (ks.getD i [] ≤ key)) lo hi = atMost ks key := by
  refine partitionPoint_eq hlo hhi ?_
  intro i _ hi'
  rw [List.getD_eq_getElem _ _ (by omega : i < ks.length), decide_eq_true_eq]
  exact le_iff_lt_atMost hsorted key i (by omega)

/-- **The search over the keys.** -/
lemma entryOfSearch_spec (h : f.Holds ks) (hsorted : ks.Pairwise (· < ·)) (key : Bytes) :
    ∃ r, f.entryOfSearch key = some r ∧ EntryFor ks key r := by
  refine ⟨_, ?_, entryFor_atMost hsorted key⟩
  rw [entryOfSearch, h.len, searchLoop_eq h key le_rfl,
    partitionPoint_atMost hsorted key (Nat.zero_le _) (atMost_le key) le_rfl]
  rfl

/-! ## Galloping from an entry found before -/

/-- The gallop ends between an entry at or below the key and one above it, or the fence's end. -/
lemma gallop_spec (h : f.Holds ks) (key : Bytes) {lo hi step : ℕ} (hlt : lo < hi)
    (hhi : hi ≤ ks.length) (hstep : 0 < step) (hle : ks.getD lo [] ≤ key) :
    ∃ lo' hi', f.gallop key lo hi step = some (lo', hi') ∧ lo' < hi' ∧ hi' ≤ ks.length ∧
      ks.getD lo' [] ≤ key ∧ (hi' = ks.length ∨ key < ks.getD hi' []) := by
  induction hd : f.len - lo using Nat.strong_induction_on generalizing lo hi step with
  | _ d ih =>
      have hlen := h.len
      by_cases hin : hi < ks.length
      · have hread : ks.getD hi [] = ks[hi] := List.getD_eq_getElem _ _ hin
        rw [gallop, dif_pos ⟨hlt, by omega⟩, h.key_lt hin, Option.bind_some]
        by_cases hb : atOrBelow ks[hi] key = true
        · rw [if_pos hb]
          refine ih _ (by omega) (by omega) (by omega) (by omega) ?_ rfl
          rw [hread]
          exact (atOrBelow_iff _ _).mp hb
        · rw [if_neg hb]
          refine ⟨lo, hi, rfl, hlt, hhi, hle, Or.inr ?_⟩
          rw [hread, ← not_le, ← atOrBelow_iff]
          exact hb
      · rw [gallop, dif_neg (by omega)]
        exact ⟨lo, hi, rfl, hlt, hhi, hle, Or.inl (by omega)⟩

/-- **The search from an entry found before**, where what it falls back to is right. -/
lemma entryOfFrom_spec (h : f.Holds ks) (hsorted : ks.Pairwise (· < ·)) (key : Bytes) (start : ℕ)
    (hof : ∃ r, f.entryOf key = some r ∧ EntryFor ks key r) :
    ∃ r, f.entryOfFrom key start = some r ∧ EntryFor ks key r := by
  have hlen := h.len
  rw [entryOfFrom]
  by_cases hout : f.len ≤ start ∨ key = []
  · rw [if_pos hout]
    exact hof
  have hin : start < ks.length := by omega
  rw [if_neg hout, h.key_lt hin]
  simp only [Option.bind_eq_bind, Option.bind_some]
  by_cases hb : atOrBelow ks[start] key = true
  swap
  · rw [if_pos hb]
    exact hof
  rw [if_neg (not_not_intro hb)]
  have hread : ks.getD start [] = ks[start] := List.getD_eq_getElem _ _ hin
  obtain ⟨lo, hi, hg, hlt, hhi, hle, hend⟩ := gallop_spec h key (Nat.lt_succ_self start) (by omega)
    (by norm_num : 0 < 1) (by rw [hread]; exact (atOrBelow_iff _ _).mp hb)
  rw [hg, Option.bind_some, betweenLoop_eq h key hhi]
  rw [List.getD_eq_getElem _ _ (by omega : lo < ks.length), le_iff_lt_atMost hsorted] at hle
  have htop : atMost ks key ≤ hi := by
    rcases hend with hend | hend
    · rw [hend]
      exact atMost_le key
    · by_contra hgt
      have hin' : hi < ks.length := by
        have := @atMost_le ks key
        omega
      rw [List.getD_eq_getElem _ _ hin'] at hend
      exact absurd ((le_iff_lt_atMost hsorted key hi hin').mpr (by omega)) (not_le_of_gt hend)
  rw [partitionPoint_atMost hsorted key (by omega) htop hhi, Option.bind_some]
  refine ⟨_, rfl, ?_⟩
  have hentry := entryFor_atMost hsorted key
  rwa [if_neg (by omega)] at hentry

/-! ## The tree -/

/-- Every key but the first takes a byte of the blob. -/
lemma length_le_flatten (hsorted : ks.Pairwise (· < ·)) : ks.length ≤ ks.flatten.length + 1 := by
  cases ks with
  | nil => simp
  | cons k ks =>
      obtain ⟨hk, -⟩ := List.pairwise_cons.mp hsorted
      have hpos : ∀ x ∈ ks, 1 ≤ x.length := by
        intro x hx
        rw [Nat.one_le_iff_ne_zero, ne_eq, List.length_eq_zero_iff]
        rintro rfl
        exact not_lt_nil k (hk _ hx)
      have hsum : ks.length ≤ ks.flatten.length := by
        clear hsorted hk
        induction ks with
        | nil => simp
        | cons x ks ih =>
            have hx := hpos x (List.mem_cons_self ..)
            have := ih (fun y hy => hpos y (List.mem_cons_of_mem _ hy))
            rw [List.flatten_cons, List.length_append, List.length_cons]
            omega
      rw [List.flatten_cons, List.length_append, List.length_cons]
      omega

/-- `fill` visits the nodes in order. -/
lemma fill_eq_foldlM (f : ZFence) (shared n : ℕ) {node : ℕ} (hnode : 0 < node)
    (st : List ℕ × List ℕ × ℕ) :
    f.fill shared n node st = (inorder n node).foldlM (fun st m => f.fillNode shared m st) st := by
  induction hd : n + 1 - node using Nat.strong_induction_on generalizing node st with
  | _ d ih =>
      by_cases hn : node ≤ n
      · rw [fill, dif_pos ⟨hnode, hn⟩, inorder_of_le hnode hn, List.foldlM_append,
          ih _ (by omega) (by omega) _ rfl]
        simp only [Option.bind_eq_bind, List.foldlM_cons]
        congr 1
        funext st
        congr 1
        funext st
        exact ih _ (by omega) (by omega) _ rfl
      · rw [fill, dif_neg (by omega), inorder_of_gt (by omega)]
        rfl

/-- What filling leaves: at each node visited the word and the number of the entry that was next,
and elsewhere what was there. -/
lemma foldlM_fillNode (h : f.Holds ks) (hfew : ks.length ≤ 2 ^ 32) (shared : ℕ) (nodes : List ℕ)
    (hnodup : nodes.Nodup) {probe pos : List ℕ} {next : ℕ}
    (hin : ∀ m ∈ nodes, m < probe.length ∧ m < pos.length)
    (hnext : next + nodes.length ≤ ks.length) :
    ∃ probe' pos', nodes.foldlM (fun st m => f.fillNode shared m st) (probe, pos, next)
        = some (probe', pos', next + nodes.length) ∧
      probe'.length = probe.length ∧ pos'.length = pos.length ∧
      (∀ (j : ℕ) (hj : j < nodes.length), probe'[nodes[j]]?
        = some (fenceWord (ks.getD (next + j) []) shared) ∧ pos'[nodes[j]]? = some (next + j)) ∧
      ∀ m, m ∉ nodes → probe'[m]? = probe[m]? ∧ pos'[m]? = pos[m]? := by
  induction nodes generalizing probe pos next with
  | nil => exact ⟨probe, pos, rfl, rfl, rfl, fun j hj => absurd hj (by simp), fun m _ => ⟨rfl, rfl⟩⟩
  | cons node nodes ih =>
      obtain ⟨hnot, hrest⟩ := List.nodup_cons.mp hnodup
      obtain ⟨hp, hq⟩ := hin node (List.mem_cons_self ..)
      rw [List.length_cons] at hnext
      have hkey : f.key next = some (ks.getD next []) := by
        rw [h.key_lt (by omega), List.getD_eq_getElem]
      have hstep : f.fillNode shared node (probe, pos, next)
          = some (probe.set node (fenceWord (ks.getD next []) shared), pos.set node next, next + 1) := by
        rw [fillNode]
        dsimp only
        rw [hkey]
        simp only [Option.bind_eq_bind, Option.bind_some]
        rw [if_pos ⟨hp, hq⟩, Nat.mod_eq_of_lt (by omega)]
      have hin' : ∀ m ∈ nodes, m < (probe.set node (fenceWord (ks.getD next []) shared)).length ∧
          m < (pos.set node next).length := by
        intro m hm
        rw [List.length_set, List.length_set]
        exact hin m (List.mem_cons_of_mem _ hm)
      have hnext' : next + 1 + nodes.length ≤ ks.length := by omega
      obtain ⟨probe', pos', hfold, hl, hl', hat, helse⟩ := ih hrest hin' hnext'
      rw [List.length_set] at hl hl'
      refine ⟨probe', pos', ?_, hl, hl', ?_, ?_⟩
      · rw [List.foldlM_cons, hstep]
        simp only [Option.bind_eq_bind, Option.bind_some]
        rw [hfold, List.length_cons, Nat.add_right_comm, Nat.add_assoc]
      · intro j hj
        cases j with
        | zero =>
            obtain ⟨h1, h2⟩ := helse node hnot
            rw [List.getElem_cons_zero, h1, h2, List.getElem?_set_self hp, List.getElem?_set_self hq]
            exact ⟨rfl, rfl⟩
        | succ j =>
            have hsum : next + (j + 1) = next + 1 + j := by omega
            rw [List.getElem_cons_succ, hsum]
            exact hat j (by simpa using hj)
      · intro m hm
        obtain ⟨h1, h2⟩ := helse m (fun hmem => hm (List.mem_cons_of_mem _ hmem))
        have hne : node ≠ m := fun heq => hm (heq ▸ List.mem_cons_self ..)
        rw [h1, h2, List.getElem?_set_ne hne, List.getElem?_set_ne hne]
        exact ⟨rfl, rfl⟩

/-- A tree over the keys `ks`: the bytes all non-empty keys begin with, and at the `k`-th node of
the walk the `k`-th key's word and number. -/
structure Tree (g : ZFence) (ks : List Bytes) : Prop where
  built : g.probe ≠ []
  shares : ∀ k ∈ ks, k ≠ [] → k.take g.shared.length = g.shared
  nodes : ∀ (j : ℕ) (hj : j < (inorder ks.length 1).length),
    g.probe[(inorder ks.length 1)[j]]? = some (fenceWord (ks.getD j []) g.shared.length) ∧
    g.probePos[(inorder ks.length 1)[j]]? = some j

/-- Every non-empty key begins with the bytes the first of them and the last share. -/
lemma sharedBytes_spec (h : f.Holds ks) (hsorted : ks.Pairwise (· < ·)) :
    ∃ shared, f.sharedBytes = some shared ∧ ∀ k ∈ ks, k ≠ [] → k.take shared.length = shared := by
  have hkey : ∀ i, (f.key i).any (· ≠ []) = true ↔ ∃ hi : i < ks.length, ks[i] ≠ [] := by
    intro i
    rw [h.key]
    by_cases hi : i < ks.length
    · rw [List.getElem?_eq_getElem hi]
      simp [hi]
    · rw [List.getElem?_eq_none (by omega)]
      simp [hi]
  rw [sharedBytes, h.len]
  cases hfind : (List.range ks.length).find? (fun i => (f.key i).any (· ≠ [])) with
  | none =>
      refine ⟨[], rfl, ?_⟩
      intro k hk hne
      obtain ⟨i, hi, rfl⟩ := List.mem_iff_getElem.mp hk
      have := List.find?_eq_none.mp hfind i (List.mem_range.mpr hi)
      exact absurd ((hkey i).mpr ⟨hi, hne⟩) this
  | some i =>
      obtain ⟨hgood, m, hm, hmi, hbefore⟩ := List.find?_eq_some_iff_getElem.mp hfind
      obtain ⟨hi, hne⟩ := (hkey i).mp hgood
      have hfirst : ∀ j < i, ¬ (f.key j).any (· ≠ []) = true := by
        rw [List.getElem_range] at hmi
        subst hmi
        intro j hj
        have := hbefore j hj
        rw [List.getElem_range] at this
        simpa using this
      obtain ⟨hla, hlb, htake⟩ := take_sharedLen ks[i] ks[ks.length - 1]
      dsimp only
      rw [h.key_lt hi, h.key_lt (by omega)]
      refine ⟨ks[i].take (sharedLen ks[i] ks[ks.length - 1]), rfl, ?_⟩
      intro k hk hkne
      obtain ⟨j, hj, rfl⟩ := List.mem_iff_getElem.mp hk
      have hij : i ≤ j := by
        by_contra hlt
        exact hfirst j (by omega) ((hkey j).mpr ⟨hj, hkne⟩)
      have hmono : ∀ a b (ha : a < ks.length) (hb : b < ks.length), a ≤ b → ks[a] ≤ ks[b] := by
        intro a b ha hb hab
        rcases Nat.eq_or_lt_of_le hab with rfl | hlt
        · exact le_rfl
        · exact (List.pairwise_iff_getElem.mp hsorted a b ha hb hlt).le
      rw [List.length_take, min_eq_left hla]
      exact take_eq_of_between (hmono i j hi hj hij) (hmono j (ks.length - 1) hj (by omega) (by omega)) hla htake

/-- **What `index` builds.** -/
lemma index_spec (h : f.Holds ks) (hsorted : ks.Pairwise (· < ·)) :
    ∃ g, f.index = some g ∧ g.Holds ks ∧ (ks ≠ [] → Tree g ks) := by
  rw [index, h.len]
  by_cases h0 : ks.length = 0
  · rw [if_pos h0]
    exact ⟨_, rfl, h.bare, fun hne => absurd (List.length_eq_zero_iff.mp h0) hne⟩
  obtain ⟨shared, hshared, hall⟩ := sharedBytes_spec h hsorted
  have hfew : ks.length ≤ 2 ^ 32 := by
    have := length_le_flatten hsorted
    have := h.fits
    omega
  have hcount := length_inorder ks.length
  have hmem : ∀ m ∈ inorder ks.length 1, m < ks.length + 1 := by
    intro m hm
    have := ((mem_inorder (by norm_num)).mp hm).1
    omega
  have hroom : ks.length + 1 ≤ divCeil (ks.length + 1) 8 * 8 := by
    rw [divCeil]
    omega
  have hin : ∀ m ∈ inorder ks.length 1,
      m < (List.replicate (divCeil (ks.length + 1) 8 * 8) 0).length ∧
      m < (List.replicate (ks.length + 1) 0).length := by
    intro m hm
    have := hmem m hm
    rw [List.length_replicate, List.length_replicate]
    omega
  have hnext : 0 + (inorder ks.length 1).length ≤ ks.length := by omega
  obtain ⟨probe, pos, hfold, hplen, -, hat, -⟩ :=
    foldlM_fillNode h hfew shared.length (inorder ks.length 1)
    (inorder_nodup (by norm_num)) hin hnext
  rw [if_neg h0, hshared]
  simp only [Option.bind_eq_bind, Option.bind_some]
  rw [fill_eq_foldlM f shared.length ks.length (by norm_num), hfold, Option.bind_some]
  refine ⟨_, rfl, ⟨h.ranks, h.pages, h.offs, h.blob, h.fits⟩, fun _ => ⟨?_, hall, ?_⟩⟩
  · intro hnil
    dsimp only at hnil
    rw [hnil, List.length_replicate] at hplen
    simp at hplen
    omega
  · intro j hj
    have := hat j hj
    rwa [Nat.zero_add] at this

/-! ## The search by the tree -/

/-- The empty key's word. -/
lemma fenceWord_nil (n : ℕ) : fenceWord [] n = 0 := by
  rw [fenceWord, List.drop_nil]
  rfl

/-- The words ascend with the keys. -/
lemma fenceWord_mono {n : ℕ} {shared : Bytes} (hshared : ∀ k ∈ ks, k ≠ [] → k.take n = shared)
    (hsorted : ks.Pairwise (· < ·)) {i j : ℕ} (hij : i < j) (hj : j < ks.length) :
    fenceWord ks[i] n ≤ fenceWord ks[j] n := by
  have hlt := List.pairwise_iff_getElem.mp hsorted i j (by omega) hj hij
  have hlen : (padded 8 (ks[i].drop n)).length = (padded 8 (ks[j].drop n)).length := by
    rw [length_padded, length_padded]
  refine beNat_le_beNat hlen ?_
  by_cases hne : ks[i] = []
  · rw [hne, List.drop_nil]
    exact padded_le_padded (nil_le _)
  · have hne' : ks[j] ≠ [] := by
      intro hnil
      rw [hnil] at hlt
      exact not_lt_nil _ hlt
    refine padded_drop_le ?_ hlt.le
    rw [hshared _ (List.getElem_mem _) hne, hshared _ (List.getElem_mem _) hne']

/-- The walk down the tree is the search of the layout. -/
lemma aboveLoop_eq (f : ZFence) (w : ℕ) {i : ℕ} (hi : 0 < i)
    (hnodes : ∀ m, 0 < m → m ≤ f.len → ∃ v, f.probe[m]? = some v) :
    f.aboveLoop w i = some (descend (fun m => decide (f.probe.getD m 0 ≤ w)) f.len i) := by
  induction hd : f.len + 1 - i using Nat.strong_induction_on generalizing i with
  | _ d ih =>
      by_cases hn : i ≤ f.len
      · obtain ⟨v, hv⟩ := hnodes i hi hn
        have hget : f.probe.getD i 0 = v := by rw [List.getD_eq_getElem?_getD, hv, Option.getD_some]
        rw [aboveLoop, dif_pos ⟨hi, hn⟩, hv, Option.bind_some, descend, dif_pos ⟨hi, hn⟩, hget]
        simp only [decide_eq_true_eq]
        exact ih _ (by split <;> omega) (by omega) rfl
      · rw [aboveLoop, dif_neg (by omega), descend, dif_neg (by omega)]

/-- **The first entry above by word**: the entries before it have words at or below, it and those
behind it words above. -/
lemma aboveByWord_spec (h : f.Holds ks) (ht : Tree f ks) (hsorted : ks.Pairwise (· < ·)) (w : ℕ) :
    ∃ e ≤ ks.length, f.aboveByWord w = some e ∧
      ∀ (i : ℕ) (hi : i < ks.length), e ≤ i → w < fenceWord ks[i] f.shared.length := by
  have hlen := h.len
  have hcount := length_inorder ks.length
  set nodes := inorder ks.length 1 with hnodes
  have hread : ∀ (j : ℕ) (hj : j < nodes.length), f.probe.getD nodes[j] 0
      = fenceWord (ks.getD j []) f.shared.length := by
    intro j hj
    rw [List.getD_eq_getElem?_getD, (ht.nodes j hj).1, Option.getD_some]
  have hpair : nodes.Pairwise (fun a b => decide (f.probe.getD b 0 ≤ w) = true →
      decide (f.probe.getD a 0 ≤ w) = true) := by
    rw [List.pairwise_iff_getElem]
    intro i j hi hj hij hb
    rw [decide_eq_true_eq, hread j hj, List.getD_eq_getElem _ _ (by omega : j < ks.length)] at hb
    rw [decide_eq_true_eq, hread i hi, List.getD_eq_getElem _ _ (by omega : i < ks.length)]
    exact (fenceWord_mono ht.shares hsorted hij (by omega)).trans hb
  have hall : ∀ m, 0 < m → m ≤ f.len → ∃ v, f.probe[m]? = some v := by
    intro m hm hle
    have hmem : m ∈ nodes := by
      rw [hnodes, (inorder_perm ks.length).mem_iff, List.mem_range'_1]
      omega
    obtain ⟨j, hj, rfl⟩ := List.mem_iff_getElem.mp hmem
    exact ⟨_, (ht.nodes j hj).1⟩
  have hlast := lastLeft_descend (n := ks.length) (i := 1) (by norm_num) hpair
  rw [← hnodes] at hlast
  rw [aboveByWord, aboveLoop_eq f w (by norm_num) hall, hlen]
  simp only [Option.bind_eq_bind, Option.bind_some]
  rw [← lastLeft, hlast]
  cases hfind : nodes.find? (fun m => !decide (f.probe.getD m 0 ≤ w)) with
  | none =>
      have hzero : lastLeft 1 = 0 := by decide +kernel
      rw [Option.getD_none, hzero, if_pos rfl]
      exact ⟨ks.length, le_rfl, rfl, fun i hi hle => absurd hle (by omega)⟩
  | some m =>
      obtain ⟨hm, j, hj, rfl, hbefore⟩ := List.find?_eq_some_iff_getElem.mp hfind
      have hpos : nodes[j] ≠ 0 := by
        have hmem : nodes[j] ∈ List.range' 1 ks.length := (inorder_perm ks.length).mem_iff.mp (List.getElem_mem hj)
        rw [List.mem_range'_1] at hmem
        omega
      rw [Option.getD_some, if_neg hpos, (ht.nodes j hj).2]
      refine ⟨j, by omega, rfl, ?_⟩
      intro i hi hle
      have habove : w < fenceWord ks[j] f.shared.length := by
        rw [hread j hj, List.getD_eq_getElem _ _ (by omega : j < ks.length)] at hm
        simpa using hm
      rcases Nat.eq_or_lt_of_le hle with rfl | hlt
      · exact habove
      · exact habove.trans_le (fenceWord_mono ht.shares hsorted hlt hi)

/-- The walk down from an entry that it and all behind it are above the key. -/
lemma downFrom_spec (h : f.Holds ks) (ht : Tree f ks) {key : Bytes}
    (hcarry : key.take f.shared.length = f.shared) {e : ℕ} (he : e ≤ ks.length)
    (habove : ∀ (i : ℕ) (hi : i < ks.length), e ≤ i → key < ks[i]) :
    ∃ r, f.downFrom key (fenceWord key f.shared.length) e = some r ∧ EntryFor ks key r := by
  induction e with
  | zero =>
      refine ⟨none, rfl, ?_⟩
      intro k hk
      obtain ⟨i, hi, rfl⟩ := List.mem_iff_getElem.mp hk
      exact habove i hi (Nat.zero_le _)
  | succ e ih =>
      rw [downFrom, h.key_lt (by omega)]
      simp only [Option.bind_eq_bind, Option.bind_some]
      split_ifs with hstop
      · refine ⟨some e, rfl, by omega, ?_, fun j hj hlt => habove j hj hlt⟩
        rcases hstop with hnil | hword | hcmp
        · rw [hnil]
          exact nil_le _
        · by_cases hne : ks[e] = []
          · rw [hne]
            exact nil_le _
          · -- a smaller word behind the shared bytes is a smaller key
            refine (lt_of_padded_drop_lt (n := 8) (p := f.shared.length) ?_ ?_).le
            · rw [ht.shares _ (List.getElem_mem _) hne, hcarry]
            · exact beNat_padded_lt_iff.mp hword
        · exact (keyCmp_ne_gt _ _).mp hcmp
      · refine ih (by omega) ?_
        intro i hi hle
        rcases Nat.eq_or_lt_of_le hle with rfl | hlt
        · have hnot : ¬ ks[e] ≤ key := fun hle => hstop (Or.inr (Or.inr ((keyCmp_ne_gt _ _).mpr hle)))
          exact not_le.mp hnot
        · exact habove i hi hlt

/-- A key below every non-empty one falls among the empty key's records, where there is one. -/
lemma belowEveryNonempty_spec (h : f.Holds ks) (hsorted : ks.Pairwise (· < ·)) {key : Bytes}
    (hbelow : ∀ k ∈ ks, k ≠ [] → key < k) : EntryFor ks key f.belowEveryNonempty := by
  have hpos : ∀ (j : ℕ) (hj : j < ks.length), 0 < j → ks[j] ≠ [] := by
    intro j hj h0 hnil
    have hlt := List.pairwise_iff_getElem.mp hsorted 0 j (by omega) hj h0
    rw [hnil] at hlt
    exact not_lt_nil _ hlt
  rw [belowEveryNonempty, h.key]
  by_cases hfirst : ks[0]? = some []
  · rw [if_pos hfirst]
    obtain ⟨h0, hnil⟩ := List.getElem?_eq_some_iff.mp hfirst
    refine ⟨h0, by rw [hnil]; exact nil_le _, ?_⟩
    intro j hj hlt
    exact hbelow _ (List.getElem_mem hj) (hpos j hj hlt)
  · rw [if_neg hfirst]
    intro k hk
    refine hbelow k hk ?_
    rintro rfl
    obtain ⟨j, hj, hnil⟩ := List.mem_iff_getElem.mp hk
    rcases Nat.eq_zero_or_pos j with rfl | h0
    · exact hfirst (List.getElem?_eq_some_iff.mpr ⟨hj, hnil⟩)
    · exact hpos j hj h0 hnil

lemma Tree.take_eq (ht : Tree f ks) {m : ℕ} (hm : m ≤ f.shared.length) {k : Bytes} (hk : k ∈ ks)
    (hne : k ≠ []) : k.take m = f.shared.take m := by
  rw [← ht.shares k hk hne, List.take_take, min_eq_left hm]

/-- A key whose first bytes are below the shared ones is below every key that begins with them. -/
lemma Tree.lt_of_take_lt (ht : Tree f ks) {key : Bytes} {m : ℕ} (hm : m ≤ f.shared.length)
    (hlt : key.take m < f.shared.take m) : ∀ k ∈ ks, k ≠ [] → key < k := by
  intro k hk hne
  refine lt_of_take_lt_take (n := m) ?_
  rwa [ht.take_eq hm hk hne]

/-- A key whose first bytes are above them is above every key. -/
lemma Tree.le_of_lt_take (ht : Tree f ks) {key : Bytes} {m : ℕ} (hm : m ≤ f.shared.length)
    (hlt : f.shared.take m < key.take m) : ∀ k ∈ ks, k ≤ key := by
  intro k hk
  by_cases hne : k = []
  · rw [hne]
    exact nil_le key
  · refine (lt_of_take_lt_take (n := m) ?_).le
    rwa [ht.take_eq hm hk hne]

/-- A key that ends inside the shared bytes is below every key that begins with them. -/
lemma Tree.lt_of_short (ht : Tree f ks) {key : Bytes} (hshort : key.length < f.shared.length)
    (heq : key = f.shared.take key.length) : ∀ k ∈ ks, k ≠ [] → key < k := by
  intro k hk hne
  have hshare := ht.shares k hk hne
  have hcut : k.take key.length = key := by
    conv_rhs => rw [heq, ← hshare, List.take_take, min_eq_left hshort.le]
  refine lt_of_le_of_ne (hcut ▸ take_le key.length k) ?_
  intro hsame
  have hlen := congrArg List.length hshare
  rw [List.length_take, ← hsame] at hlen
  omega

/-- **The search by the tree.** -/
lemma entryOf_tree (h : f.Holds ks) (ht : Tree f ks) (hsorted : ks.Pairwise (· < ·)) (hne : ks ≠ [])
    (key : Bytes) : ∃ r, f.entryOf key = some r ∧ EntryFor ks key r := by
  rw [entryOf, if_neg ht.built]
  by_cases hempty : key = []
  · rw [if_pos hempty]
    refine ⟨_, rfl, belowEveryNonempty_spec h hsorted ?_⟩
    intro k hk hne
    rw [hempty]
    exact lt_of_le_of_ne (nil_le k) (Ne.symm hne)
  rw [if_neg hempty]
  dsimp only
  set m := min key.length f.shared.length with hm
  have hms : m ≤ f.shared.length := min_le_right _ _
  have hhead : (key.take m).length = m := by
    rw [List.length_take, min_eq_left (min_le_left _ _)]
  rw [hhead]
  rcases lt_trichotomy (key.take m) (f.shared.take m) with hlt | heq | hgt
  · rw [cmp_of_lt hlt]
    exact ⟨_, rfl, belowEveryNonempty_spec h hsorted (ht.lt_of_take_lt hms hlt)⟩
  · rw [heq, cmp_of_eq]
    dsimp only
    by_cases hshort : key.length < f.shared.length
    · rw [if_pos hshort]
      have hcut : key = f.shared.take key.length := by
        have hmk : m = key.length := by omega
        rwa [hmk, List.take_length] at heq
      exact ⟨_, rfl, belowEveryNonempty_spec h hsorted (ht.lt_of_short hshort hcut)⟩
    · rw [if_neg hshort]
      have hcarry : key.take f.shared.length = f.shared := by
        have hmf : m = f.shared.length := by omega
        rwa [hmf, List.take_length] at heq
      obtain ⟨e, he, heq', habove⟩ := aboveByWord_spec h ht hsorted (fenceWord key f.shared.length)
      rw [heq']
      refine downFrom_spec h ht hcarry he ?_
      intro i hi hle
      have hword := habove i hi hle
      -- the empty key's word is nothing, and above no word
      have hk : ks[i] ≠ [] := by
        intro hnil
        rw [hnil, fenceWord_nil] at hword
        exact absurd hword (Nat.not_lt_zero _)
      refine lt_of_padded_drop_lt (n := 8) (p := f.shared.length) ?_ (beNat_padded_lt_iff.mp hword)
      rw [ht.shares _ (List.getElem_mem hi) hk, hcarry]
  · rw [cmp_of_gt hgt, h.len]
    have hpos : 0 < ks.length := List.length_pos_iff.mpr hne
    dsimp only
    rw [if_neg (by omega)]
    refine ⟨_, rfl, by omega, ht.le_of_lt_take hms hgt _ (List.getElem_mem _), ?_⟩
    intro j hj hlt
    omega

/-- **A fence's searches agree.**  For entries with ascending keys, the first perhaps empty, every
key and every entry to start from: the search by the tree `index` builds, the search without it and
the search from the entry all end, and with the one greatest entry whose key is at or below the key.
-/
theorem searches_agree (f : ZFence) (ks : List Bytes) (h : f.Holds ks)
    (hsorted : ks.Pairwise (· < ·)) (key : Bytes) (start : ℕ) :
    ∃ g r, f.index = some g ∧ EntryFor ks key r ∧
      g.entryOf key = some r ∧ f.bare.entryOf key = some r ∧ f.entryOfSearch key = some r ∧
      g.entryOfFrom key start = some r ∧ f.bare.entryOfFrom key start = some r := by
  obtain ⟨g, hg, hgholds, htree⟩ := index_spec h hsorted
  obtain ⟨r, hsearch, hr⟩ := entryOfSearch_spec h hsorted key
  have hbare : ∃ r, f.bare.entryOf key = some r ∧ EntryFor ks key r := by
    have hof : f.bare.entryOf key = f.bare.entryOfSearch key := by
      rw [entryOf]
      exact if_pos rfl
    rw [hof]
    exact entryOfSearch_spec h.bare hsorted key
  have hindexed : ∃ r, g.entryOf key = some r ∧ EntryFor ks key r := by
    by_cases hne : ks = []
    · have hprobe : g.probe = [] := by
        have hzero : f.len = 0 := by rw [h.len, hne, List.length_nil]
        rw [index, if_pos hzero, Option.some.injEq] at hg
        rw [← hg]
        rfl
      have hof : g.entryOf key = g.entryOfSearch key := by rw [entryOf, if_pos hprobe]
      rw [hof]
      exact entryOfSearch_spec hgholds hsorted key
    · exact entryOf_tree hgholds (htree hne) hsorted hne key
  have hagree : ∀ {o : Option (Option ℕ)}, (∃ r, o = some r ∧ EntryFor ks key r) → o = some r := by
    rintro o ⟨r', rfl, hr'⟩
    rw [hr'.unique hr]
  exact ⟨g, r, hg, hr, hagree hindexed, hagree hbare, hsearch,
    hagree (entryOfFrom_spec hgholds hsorted key start hindexed),
    hagree (entryOfFrom_spec h.bare hsorted key start hbare)⟩

end Searches

/-- Three entries: the empty key's, and two whose words behind the byte they share are the same. -/
def tiedFence : ZFence := ⟨[0, 2, 7], [0, 1, 2], [0, 0, 1, 3], [1, 1, 0], [], [], []⟩

/-- The two entries are told apart by their keys. -/
theorem searches_agree_tied : ∃ g r, tiedFence.index = some g ∧ EntryFor [[], [1], [1, 0]] [1] r ∧
    g.entryOf [1] = some r ∧ tiedFence.bare.entryOf [1] = some r ∧
    tiedFence.entryOfSearch [1] = some r ∧
    g.entryOfFrom [1] 0 = some r ∧ tiedFence.bare.entryOfFrom [1] 0 = some r :=
  searches_agree tiedFence [[], [1], [1, 0]] ⟨rfl, rfl, by decide, rfl, by decide⟩ (by decide) [1] 0

end ZFence

end Supdb

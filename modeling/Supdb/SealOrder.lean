import Supdb.HashedRefines
import Supdb.Lib.BigEndian
import Supdb.Lib.StableSort

/-!
# The order of a seal

A seal writes a hashed table in the order of its keys.  The entries are sorted by the first sixteen
bytes of their keys, in counting passes from the last byte to the first that leave out the bytes all
keys share, and then those of one prefix by their keys.

* `radixByPrefix` – the passes; `radixByPrefix_stable` – **they are the stable sort by the prefix.**
* `sortTies` – the runs of one prefix.
* `HashedTable.slotsInKeyOrder` – the order, and `slotsInKeyOrder_spec` – **it is the keys' own.**
-/

namespace Supdb

open StorageLib

/-- A record of the sort: the two words of a key's prefix, and its entry's number. -/
abbrev PrefixRec := ℕ × ℕ × ℕ

/-- `key_prefix`: the first sixteen bytes of a key as two big-endian words, zero-padded. -/
def keyPrefix (k : Bytes) : ℕ × ℕ :=
  let b := k.take 16 ++ List.replicate (16 - k.length) 0
  (beNat (b.take 8), beNat (b.drop 8))

/-- The word a pass looks at: the second for the first eight, then the first. -/
def pickWord (word : ℕ) (r : PrefixRec) : ℕ := if word = 0 then r.2.1 else r.1

/-- The bits of a word that differ somewhere. -/
def varying (word : ℕ) (v : List PrefixRec) : ℕ :=
  (v.foldl (fun a r => a &&& pickWord word r) (2 ^ 64 - 1)) ^^^
    (v.foldl (fun o r => o ||| pickWord word r) 0)

/-- The byte a pass sorts by. -/
def wordByte (word shift : ℕ) (r : PrefixRec) : ℕ := (pickWord word r >>> shift) &&& 0xFF

/-- One turn of the passes: nothing where no record differs in the byte; else a counting pass, and
the two lists swapped. -/
def radixTurn (vary : ℕ → ℕ) (s : List PrefixRec × List PrefixRec) (p : ℕ × ℕ) :
    List PrefixRec × List PrefixRec :=
  if (vary p.1 >>> p.2) &&& 0xFF = 0 then s else (countingPass 256 (wordByte p.1 p.2) s.1 s.2, s.1)

/-- The turns: each word's eight bytes, the lowest first. -/
def radixTurns : List (ℕ × ℕ) := (List.range 16).map (fun i => (i / 8, 8 * (i % 8)))

/-- `radix_by_prefix`. -/
def radixByPrefix (v : List PrefixRec) : List PrefixRec :=
  if v.length < 2 then v
  else (radixTurns.foldl (radixTurn (fun word => varying word v))
    (v, List.replicate v.length (0, 0, 0))).1

/-- The comparison sort inside each run of equal prefixes. -/
def sortTies (key : ℕ → Bytes) : List PrefixRec → List PrefixRec
  | [] => []
  | r :: rest =>
      let run := r :: rest.takeWhile (fun x => (x.1, x.2.1) = (r.1, r.2.1))
      (if 1 < run.length then run.insertionSort (fun x y => key x.2.2 ≤ key y.2.2) else run) ++
        sortTies key (rest.dropWhile (fun x => (x.1, x.2.1) = (r.1, r.2.1)))
termination_by l => l.length
decreasing_by exact Nat.lt_succ_of_le (List.dropWhile_suffix _).length_le

/-- `slots_in_key_order`. -/
def HashedTable.slotsInKeyOrder (t : HashedTable) : Option (List ℕ) := do
  let keys ← t.entries.mapM t.keyOf
  let recs := keys.zipIdx.map (fun e => ((keyPrefix e.1).1, (keyPrefix e.1).2, e.2))
  some ((sortTies (fun i => keys.getD i []) (radixByPrefix recs)).map (fun r => r.2.2))

/-! ## The passes -/

/-- A record's prefix as one number. -/
def prefixNat (r : PrefixRec) : ℕ := r.1 * 2 ^ 64 + r.2.1

/-- Words of eight bytes. -/
def PrefixFits (r : PrefixRec) : Prop := r.1 < 2 ^ 64 ∧ r.2.1 < 2 ^ 64

section Passes

variable {v : List PrefixRec} {r : PrefixRec} {word shift i : ℕ}

lemma and_0xFF (n : ℕ) : n &&& 0xFF = n % 256 := Nat.and_two_pow_sub_one_eq_mod n 8

lemma wordByte_lt : wordByte word shift r < 256 := by
  rw [wordByte, and_0xFF]
  exact Nat.mod_lt _ (by norm_num)

/-- The byte of a turn, of the prefix as one number. -/
lemma wordByte_eq (hi : i < 16) (h : PrefixFits r) :
    wordByte (i / 8) (8 * (i % 8)) r = prefixNat r / 256 ^ i % 256 := by
  obtain ⟨h1, h2⟩ := h
  rw [wordByte, and_0xFF, Nat.shiftRight_eq_div_pow, pow_mul, pickWord, prefixNat]
  norm_num only
  by_cases hlow : i < 8
  · -- the low word: what the high one adds is a multiple of the byte's place
    rw [if_pos (by omega), Nat.mod_eq_of_lt hlow]
    obtain ⟨c, hc⟩ : ∃ c, (2 : ℕ) ^ 64 = 256 ^ i * (256 * c) := by
      refine ⟨256 ^ (7 - i), ?_⟩
      rw [← mul_assoc, ← pow_succ, ← pow_add, show i + 1 + (7 - i) = 8 by omega]
      norm_num
    have hpos : 0 < 256 ^ i := Nat.pow_pos (by norm_num)
    have hsum : r.1 * 18446744073709551616 + r.2.1 = 256 ^ i * (256 * (c * r.1)) + r.2.1 := by
      have hc' : (18446744073709551616 : ℕ) = 256 ^ i * (256 * c) := by rw [← hc]; norm_num
      rw [hc']
      ring
    rw [hsum, Nat.mul_add_div hpos, Nat.mul_add_mod]
  · rw [if_neg (by omega)]
    obtain ⟨j, rfl⟩ : ∃ j, i = 8 + j := ⟨i - 8, by omega⟩
    have hj : (8 + j) % 8 = j := by omega
    rw [hj, pow_add, ← Nat.div_div_eq_div_mul]
    have hdiv : (r.1 * 18446744073709551616 + r.2.1) / 256 ^ 8 = r.1 := by
      norm_num only at h2 ⊢
      omega
    rw [hdiv]

/-- A byte no record differs in is the same in all. -/
lemma wordByte_const (hs : shift + 8 ≤ 64)
    (h : (varying word v >>> shift) &&& 0xFF = 0) : ∀ x ∈ v, ∀ y ∈ v, wordByte word shift x
    = wordByte word shift y := by
  have hand : ∀ (l : List PrefixRec) (a j : ℕ),
      (l.foldl (fun a r => a &&& pickWord word r) a).testBit j
      = (a.testBit j && l.all (fun r => (pickWord word r).testBit j)) := by
    intro l
    induction l with
    | nil => intro a j; simp
    | cons r l ih =>
        intro a j
        rw [List.foldl_cons, ih, Nat.testBit_and, List.all_cons, Bool.and_assoc]
  have hor : ∀ (l : List PrefixRec) (o j : ℕ),
      (l.foldl (fun o r => o ||| pickWord word r) o).testBit j
      = (o.testBit j || l.any (fun r => (pickWord word r).testBit j)) := by
    intro l
    induction l with
    | nil => intro o j; simp
    | cons r l ih =>
        intro o j
        rw [List.foldl_cons, ih, Nat.testBit_or, List.any_cons, Bool.or_assoc]
  have hbit : ∀ j < 8, ∀ x ∈ v, (pickWord word x).testBit (shift + j)
      = v.any (fun r => (pickWord word r).testBit (shift + j)) := by
    intro j hj x hx
    have hzero : ((varying word v >>> shift) &&& 0xFF).testBit j = false := by
      rw [h]
      exact Nat.zero_testBit j
    have hmask : Nat.testBit 0xFF j = true := by
      rw [show (0xFF : ℕ) = 2 ^ 8 - 1 from rfl, Nat.testBit_two_pow_sub_one]
      simpa using hj
    have hfull : Nat.testBit (2 ^ 64 - 1) (shift + j) = true := by
      rw [Nat.testBit_two_pow_sub_one]
      simp only [decide_eq_true_eq]
      omega
    rw [Nat.testBit_and, hmask, Bool.and_true, Nat.testBit_shiftRight, varying, Nat.testBit_xor,
      hand, hor, hfull,
      Nat.zero_testBit, Bool.true_and, Bool.false_or, bne_eq_false_iff_eq] at hzero
    rw [← hzero]
    cases hb : (pickWord word x).testBit (shift + j) with
    | true =>
        rw [hzero]
        exact (List.any_eq_true.mpr ⟨x, hx, hb⟩).symm
    | false =>
        symm
        rw [List.all_eq_false]
        exact ⟨x, hx, by simp [hb]⟩
  intro x hx y hy
  refine Nat.eq_of_testBit_eq (fun j => ?_)
  rw [wordByte, wordByte, Nat.testBit_and, Nat.testBit_and, Nat.testBit_shiftRight,
    Nat.testBit_shiftRight]
  by_cases hj : j < 8
  · rw [hbit j hj x hx, hbit j hj y hy]
  · have hmask : Nat.testBit 0xFF j = false := by
      rw [show (0xFF : ℕ) = 2 ^ 8 - 1 from rfl, Nat.testBit_two_pow_sub_one]
      simpa using hj
    rw [hmask, Bool.and_false, Bool.and_false]

/-- **A turn** sorts by one byte more. -/
lemma radixTurn_stable {s : List PrefixRec × List PrefixRec} (hfits : ∀ r ∈ v, PrefixFits r)
    (hi : i < 16) (hlen : s.2.length = v.length)
    (h : StableSort (fun r => prefixNat r % 256 ^ i) v s.1) :
    StableSort (fun r => prefixNat r % 256 ^ (i + 1)) v
        (radixTurn (fun word => varying word v) s (i / 8, 8 * (i % 8))).1 ∧
      (radixTurn (fun word => varying word v) s (i / 8, 8 * (i % 8))).2.length = v.length := by
  rw [radixTurn]
  split_ifs with hsame
  · refine ⟨h.skip (by norm_num) (fun x hx y hy => ?_), hlen⟩
    rw [← wordByte_eq hi (hfits x hx), ← wordByte_eq hi (hfits y hy)]
    exact wordByte_const (by omega) hsame x hx y hy
  · have hpass : countingPass 256 (wordByte (i / 8) (8 * (i % 8))) s.1 s.2
        = buckets 256 (wordByte (i / 8) (8 * (i % 8))) s.1 :=
      countingPass_eq (fun x _ => wordByte_lt) (hlen.trans h.perm.length_eq.symm)
    refine ⟨?_, h.perm.length_eq⟩
    show StableSort _ v (countingPass _ _ _ _)
    rw [hpass]
    exact h.digit (by norm_num) (fun x hx => wordByte_eq hi (hfits x hx))

/-- **The passes are the stable sort by the prefix.** -/
theorem radixByPrefix_stable (hfits : ∀ r ∈ v, PrefixFits r) :
    StableSort prefixNat v (radixByPrefix v) := by
  rw [radixByPrefix]
  split_ifs with hshort
  · refine ⟨?_, fun c => rfl⟩
    match v, hshort with
    | [], _ => exact List.Pairwise.nil
    | [x], _ => exact List.pairwise_singleton _ _
  · have hturns : ∀ n ≤ 16, ∃ s, ((List.range n).map (fun i => (i / 8, 8 * (i % 8)))).foldl
        (radixTurn (fun word => varying word v)) (v, List.replicate v.length (0, 0, 0)) = s ∧
        StableSort (fun r => prefixNat r % 256 ^ n) v s.1 ∧ s.2.length = v.length := by
      intro n
      induction n with
      | zero => exact fun _ => ⟨_, rfl, stableSort_mod_zero prefixNat 256 v, List.length_replicate⟩
      | succ n ih =>
          intro hn
          obtain ⟨s, hs, hstable, hlen⟩ := ih (by omega)
          rw [List.range_succ, List.map_append, List.foldl_append, hs, List.map_singleton,
            List.foldl_cons, List.foldl_nil]
          exact ⟨_, rfl, radixTurn_stable hfits (by omega) hlen hstable⟩
    obtain ⟨s, hs, hstable, -⟩ := hturns 16 (le_refl _)
    rw [radixTurns, hs]
    refine hstable.whole (fun r hr => ?_)
    obtain ⟨h1, h2⟩ := hfits r hr
    rw [prefixNat]
    norm_num only at h1 h2 ⊢
    omega

end Passes

/-! ## Ties -/

section Ties

variable {v : List PrefixRec} {key : ℕ → Bytes} {r x : PrefixRec} {k l : Bytes}

lemma pair_eq_iff (hr : PrefixFits r) (hx : PrefixFits x) :
    (x.1, x.2.1) = (r.1, r.2.1) ↔ prefixNat x = prefixNat r := by
  obtain ⟨h1, h2⟩ := hr
  obtain ⟨h3, h4⟩ := hx
  rw [Prod.mk.injEq, prefixNat, prefixNat]
  norm_num only at h1 h2 h3 h4 ⊢
  omega

/-- **Runs of one prefix, each sorted by its keys**, stand in the order of the keys where the
prefixes do. -/
lemma sortTies_spec (hfits : ∀ x ∈ v, PrefixFits x)
    (hsorted : v.Pairwise (fun x y => prefixNat x ≤ prefixNat y))
    (hkeys : ∀ x ∈ v, ∀ y ∈ v, prefixNat x < prefixNat y → key x.2.2 < key y.2.2) :
    (sortTies key v).Perm v ∧ (sortTies key v).Pairwise (fun x y => key x.2.2 ≤ key y.2.2) := by
  induction v using sortTies.induct with
  | case1 => rw [sortTies]; exact ⟨List.Perm.refl _, List.Pairwise.nil⟩
  | case2 r rest ih =>
      have hr := hfits r (List.mem_cons_self ..)
      obtain ⟨hhead, hrest⟩ := List.pairwise_cons.mp hsorted
      set p : PrefixRec → Bool := fun x => (x.1, x.2.1) = (r.1, r.2.1) with hp
      have hsub : rest.dropWhile p ⊆ rest := (List.dropWhile_suffix p).subset
      have htake : rest.takeWhile p ⊆ rest := (List.takeWhile_prefix p).subset
      obtain ⟨hperm, hpair⟩ := ih (fun x hx => hfits x (List.mem_cons_of_mem _ (hsub hx)))
        (hrest.sublist (List.dropWhile_suffix p).sublist)
        (fun x hx y hy => hkeys x (List.mem_cons_of_mem _ (hsub hx)) y (List.mem_cons_of_mem _ (hsub hy)))
      -- the run is sorted, whether there is anything to sort or not
      have hrun : ∃ s : List PrefixRec, sortTies key (r :: rest) = s ++ sortTies key (rest.dropWhile p) ∧
          s.Perm (r :: rest.takeWhile p) ∧ s.Pairwise (fun x y => key x.2.2 ≤ key y.2.2) := by
        have : Std.Total (fun x y : PrefixRec => key x.2.2 ≤ key y.2.2) := ⟨fun x y => le_total _ _⟩
        have : IsTrans PrefixRec (fun x y => key x.2.2 ≤ key y.2.2) := ⟨fun x y z => le_trans⟩
        rw [sortTies]
        refine ⟨_, rfl, ?_, ?_⟩
        · split_ifs with hmany
          · exact List.perm_insertionSort _ _
          · exact List.Perm.refl _
        · split_ifs with hmany
          · exact List.pairwise_insertionSort _ _
          · have hnil : rest.takeWhile p = [] := by
              have hmany : ¬ 1 < (r :: rest.takeWhile p).length := hmany
              rw [List.length_cons] at hmany
              exact List.length_eq_zero_iff.mp (by omega)
            rw [hnil]
            exact List.pairwise_singleton _ _
      obtain ⟨s, hs, hsperm, hspair⟩ := hrun
      -- what is in the run has the first record's prefix, what is behind it a larger one
      have hin : ∀ x ∈ s, x ∈ r :: rest ∧ prefixNat x = prefixNat r := by
        intro x hx
        rcases List.mem_cons.mp (hsperm.mem_iff.mp hx) with rfl | hx
        · exact ⟨List.mem_cons_self .., rfl⟩
        · have hmem := List.mem_cons_of_mem r (htake hx)
          have hpx : p x = true := List.all_eq_true.mp List.all_takeWhile x hx
          exact ⟨hmem, (pair_eq_iff hr (hfits x hmem)).mp (of_decide_eq_true hpx)⟩
      have hout : ∀ y ∈ rest.dropWhile p, prefixNat r < prefixNat y := by
        intro y hy
        cases hdrop : rest.dropWhile p with
        | nil => rw [hdrop] at hy; exact absurd hy List.not_mem_nil
        | cons z zs =>
            have hz : z ∈ rest.dropWhile p := by rw [hdrop]; exact List.mem_cons_self ..
            have hzr : prefixNat z ≠ prefixNat r := by
              intro heq
              have hpz : p z = true :=
                decide_eq_true
                ((pair_eq_iff hr (hfits z (List.mem_cons_of_mem _ (hsub hz)))).mpr heq)
              have hnot := List.head?_dropWhile_not p rest
              rw [hdrop, List.head?_cons] at hnot
              simp only [hpz] at hnot
              exact absurd hnot (by simp)
            have hrz := lt_of_le_of_ne (hhead z (hsub hz)) (Ne.symm hzr)
            have htail := hrest.sublist (List.dropWhile_suffix p).sublist
            rw [hdrop] at hy htail
            rcases List.mem_cons.mp hy with rfl | hy
            · exact hrz
            · exact hrz.trans_le ((List.pairwise_cons.mp htail).1 y hy)
      rw [hs]
      refine ⟨?_, List.pairwise_append.mpr ⟨hspair, hpair, fun x hx y hy => ?_⟩⟩
      · have hsplit := (hsperm.append hperm)
        rw [List.cons_append, List.takeWhile_append_dropWhile] at hsplit
        exact hsplit
      · have hy' := hperm.mem_iff.mp hy
        obtain ⟨hxmem, hxr⟩ := hin x hx
        refine (hkeys x hxmem y (List.mem_cons_of_mem _ (hsub hy')) ?_).le
        rw [hxr]
        exact hout y hy'

/-- A key's prefix as a number is that of its first sixteen bytes. -/
lemma prefixNat_keyPrefix (i : ℕ) : PrefixFits ((keyPrefix k).1, (keyPrefix k).2, i) ∧
    prefixNat ((keyPrefix k).1, (keyPrefix k).2, i) = beNat (padded 16 k) := by
  have hlen := length_padded 16 k
  have h1 := beNat_lt ((padded 16 k).take 8)
  have h2 := beNat_lt ((padded 16 k).drop 8)
  have happ := beNat_append ((padded 16 k).take 8) ((padded 16 k).drop 8)
  rw [List.take_append_drop] at happ
  rw [List.length_take, hlen] at h1
  rw [List.length_drop, hlen] at h2 happ
  norm_num only at h1 h2 happ
  refine ⟨⟨?_, ?_⟩, ?_⟩
  · exact h1.trans_le (by norm_num)
  · exact h2.trans_le (by norm_num)
  · rw [happ, prefixNat]
    norm_num only
    rfl

end Ties

/-! ## The order -/

/-- A list read element by element. -/
lemma mapM_of_getElem? {α β : Type} {f : α → Option β} {l : List α} {m : List β}
    (hlen : l.length = m.length)
    (h : ∀ (i : ℕ) y, m[i]? = some y → l[i]?.bind f = some y) : l.mapM f = some m := by
  induction l generalizing m with
  | nil =>
      rw [List.length_eq_zero_iff.mp hlen.symm]
      rfl
  | cons x l ih =>
      cases m with
      | nil => simp at hlen
      | cons y m =>
          have hx : f x = some y := h 0 y rfl
          rw [List.mapM_cons, hx, ih (by simpa using hlen) (fun i z hz => h (i + 1) z hz)]
          rfl

section Order

variable {t : HashedTable} {hashOf : Bytes → UInt64} {ks : List Bytes}
    {chunks : List (ℕ × WalRecord)}

/-- A table's entries have the keys it holds. -/
lemma HashedTable.Held.mapM_keyOf (h : t.Held hashOf ks chunks) :
    t.entries.mapM t.keyOf = some ks :=
  mapM_of_getElem? h.entries.length h.keyOf

lemma map_getD_range {α : Type} (ks : List α) (d : α) :
    (List.range ks.length).map (fun i => ks.getD i d) = ks := by
  refine List.ext_getElem (by simp) (fun i h1 h2 => ?_)
  rw [List.getElem_map, List.getElem_range]
  exact List.getD_eq_getElem _ _ h2

/-- **The order of entries whose keys are read**: the numbers of them all, each once, their keys
ascending. -/
lemma HashedTable.slotsInKeyOrder_sorted (hkeys : t.entries.mapM t.keyOf = some ks) :
    ∃ order, t.slotsInKeyOrder = some order ∧ order.Perm (List.range ks.length) ∧
      (order.map (fun i => ks.getD i [])).Pairwise (· ≤ ·) := by
  let key : ℕ → Bytes := fun i => ks.getD i []
  let recs : List PrefixRec := ks.zipIdx.map (fun e => ((keyPrefix e.1).1, (keyPrefix e.1).2, e.2))
  have hrec : ∀ x ∈ recs, ∃ i, ks[i]? = some (key i) ∧
    x = ((keyPrefix (key i)).1, (keyPrefix (key i)).2, i) := by
    intro x hx
    obtain ⟨e, he, rfl⟩ := List.mem_map.mp hx
    have hget := List.mem_zipIdx_iff_getElem?.mp he
    have hkey : key e.2 = e.1 := by
      show ks.getD e.2 [] = e.1
      rw [List.getD_eq_getElem?_getD, hget]
      rfl
    exact ⟨e.2, by rw [hkey]; exact hget, by rw [hkey]⟩
  have hfits : ∀ x ∈ recs, PrefixFits x := by
    intro x hx
    obtain ⟨i, -, rfl⟩ := hrec x hx
    exact (prefixNat_keyPrefix i).1
  have hstable := radixByPrefix_stable hfits
  have hlt : ∀ x ∈ radixByPrefix recs, ∀ y ∈ radixByPrefix recs, prefixNat x < prefixNat y →
      key x.2.2 < key y.2.2 := by
    intro x hx y hy hxy
    obtain ⟨i, -, rfl⟩ := hrec x ((hstable.mem_iff x).mp hx)
    obtain ⟨j, -, rfl⟩ := hrec y ((hstable.mem_iff y).mp hy)
    rw [(prefixNat_keyPrefix i).2, (prefixNat_keyPrefix j).2] at hxy
    exact lt_of_beNat_padded_lt hxy
  obtain ⟨hties, hpair⟩ :=
    sortTies_spec (fun x hx => hfits x ((hstable.mem_iff x).mp hx)) hstable.sorted hlt
  have hnumbers : recs.map (fun r => r.2.2) = List.range ks.length := by
    rw [List.map_map]
    exact List.zipIdx_map_snd 0 ks |>.trans (List.range_eq_range'.symm)
  refine ⟨(sortTies key (radixByPrefix recs)).map (fun r => r.2.2), ?_, ?_, ?_⟩
  · rw [HashedTable.slotsInKeyOrder, hkeys]
    rfl
  · rw [← hnumbers]
    exact (hties.trans hstable.perm).map _
  · rw [List.map_map, List.pairwise_map]
    exact hpair

/-- Two ascending lists of the same keys are one. -/
lemma map_order (h : t.Held hashOf ks chunks) {order : List ℕ}
    (hperm : order.Perm (List.range ks.length))
    (hpair : (order.map (fun i => ks.getD i [])).Pairwise (· ≤ ·)) :
    order.map (fun i => ks.getD i []) = slotsInKeyOrder (chunks.map Prod.snd) := by
  have hks := hperm.map (fun i => ks.getD i [])
  rw [map_getD_range] at hks
  have hset : (slotsInKeyOrder (chunks.map Prod.snd)).Perm ks := by
    rw [slotsInKeyOrder]
    refine (List.perm_insertionSort _ _).trans ?_
    refine (List.perm_ext_iff_of_nodup (List.nodup_dedup _) h.nodup).mpr (fun k => ?_)
    rw [List.mem_dedup, h.known]
    simp
  exact List.Perm.eq_of_pairwise' hpair (List.pairwise_insertionSort _ _) (hks.trans hset.symm)

/-- **A table's order is its keys' own**: the numbers of its entries, each once, their keys
ascending. -/
theorem slotsInKeyOrder_spec (h : t.Held hashOf ks chunks) :
    ∃ order, t.slotsInKeyOrder = some order ∧ order.Perm (List.range ks.length) ∧
      order.map (fun i => ks.getD i []) = slotsInKeyOrder (chunks.map Prod.snd) := by
  obtain ⟨order, horder, hperm, hpair⟩ := HashedTable.slotsInKeyOrder_sorted h.mapM_keyOf
  exact ⟨order, horder, hperm, map_order h hperm hpair⟩

end Order

end Supdb

import Supdb.OrdSeekExact

/-!
# The ranks of a piece

A key of a piece is ranked in the partition the piece is aligned to: how many of the partition's
keys are below it, and whether one is it, in one word.  The ranks are found by one walk over the
piece, either over the partition's heads or over its records, and a block's build later takes a
key's cut of a window of the partition from the word, where it would search the window else.

* `ranksOver` – the walk; `rankByHeads` and `rankByRecords` are its two ways from a rank to the
  next.
* `cutKnown`, `cutAt` – a cut from a word, and from a search of the window.
* `ranks_agree` – **both ways rank every key as its word says, and a cut carried is the cut searched
  for.**
-/

namespace Supdb

open StorageLib

/-- A rank and whether its key is the one ranked, in a word of 32 bits. -/
def rankWord (rank : ℕ) (same : Bool) : ℕ := ((rank % 2 ^ 32) <<< 1) % 2 ^ 32 ||| same.toNat

/-- A key's rank by the heads, from the rank the key before it reached. -/
def rankByHeads (o : OrdIndex) (pk : ℕ) (partAt : ℕ → Option Bytes) (r : ℕ) (key : Bytes) :
    Option (ℕ × Bool) := do
  let (rank, exact) ← o.seekExactFrom r key partAt
  some (rank, decide (rank < pk) && exact.getD (decide (partAt rank = some key)))

/-- A key's rank by the records: a gallop from the last rank, then a halving search inside its span.
-/
def rankByRecords (pk : ℕ) (partAt : ℕ → Option Bytes) (r : ℕ) (key : Bytes) : ℕ × Bool :=
  let below := fun j => (partAt j).any (fun k => decide (k < key))
  let rank :=
    if r < pk ∧ below r then
      let span := gallop below pk r 0
      partitionPoint below (span.1 + 1) span.2
    else r
  (rank, decide (rank < pk) && decide (partAt rank = some key))

/-- The walk over the piece's keys from the `i`-th on; none where a key does not resolve. -/
def ranksWalk (rankFrom : ℕ → Bytes → Option (ℕ × Bool)) (pieceAt : ℕ → Option Bytes) : ℕ → ℕ → ℕ →
    Option (List ℕ)
  | 0, _, _ => some []
  | n + 1, i, r => do
      let key ← pieceAt i
      let (rank, same) ← rankFrom r key
      let rest ← ranksWalk rankFrom pieceAt n (i + 1) rank
      some (rankWord rank same :: rest)

/-- `ranks_over_records`. -/
def ranksOverRecords (pk n : ℕ) (partAt pieceAt : ℕ → Option Bytes) : Option (List ℕ) :=
  ranksWalk (fun r key => some (rankByRecords pk partAt r key)) pieceAt n 0 0

/-- `ranks_over`. -/
def ranksOver (o : OrdIndex) (pk n : ℕ) (partAt pieceAt : ℕ → Option Bytes) (byHeads : Bool) :
    Option (List ℕ) :=
  if byHeads then ranksWalk (rankByHeads o pk partAt) pieceAt n 0 0 else ranksOverRecords pk n
    partAt pieceAt

/-- `cut_known`: the cut of a window `rank..stop` from a word. -/
def cutKnown (cut rank stop : ℕ) : ℕ × Ordering :=
  let c := max (cut >>> 1) rank
  if stop ≤ c then (stop, .gt) else if cut &&& 1 = 1 then (c, .eq) else (c, .gt)

/-- `cut_at`: the cut of a window from a search of it, and whether the compare read a record. -/
def cutAt (o : OrdIndex) (partAt : ℕ → Option Bytes) (rank stop : ℕ) (uk : Bytes) :
    Option ((ℕ × Ordering) × Bool) := do
  let (r, exact) ← o.seekInExact rank stop uk partAt
  if stop ≤ r then some ((stop, .gt), false)
  else
    match exact with
    | some true => some ((r, .eq), false)
    | some false => some ((r, .gt), false)
    | none => some ((r, ((partAt r).map (fun k => cmp k uk)).getD .gt), true)

section Words

variable {rank : ℕ} {same : Bool}

/-- A word of a rank the format can have. -/
lemma rankWord_eq (h : rank < 2 ^ 31) : rankWord rank same = rank * 2 + same.toNat := by
  have hsmall : rank % 2 ^ 32 = rank := Nat.mod_eq_of_lt (by omega)
  rw [rankWord, hsmall, Nat.shiftLeft_eq, pow_one, Nat.mod_eq_of_lt (by omega)]
  have hbit : same.toNat < 2 ^ 1 := by cases same <;> decide
  have hor := Nat.two_pow_add_eq_or_of_lt hbit rank
  rw [pow_one, Nat.mul_comm] at hor
  exact hor.symm

/-- What a word says. -/
lemma rankWord_parts (same : Bool) (h : rank < 2 ^ 31) :
    rankWord rank same >>> 1 = rank ∧ (rankWord rank same &&& 1 = 1 ↔ same = true) := by
  rw [rankWord_eq h, Nat.shiftRight_eq_div_pow, pow_one, Nat.and_one_is_mod]
  cases same with
  | false => exact ⟨by simp, by simp⟩
  | true =>
      refine ⟨?_, ?_⟩
      · rw [Bool.toNat_true]
        omega
      · rw [Bool.toNat_true]
        exact iff_of_true (by omega) rfl

end Words

/-! ## The walks -/

/-- The word of a key: how many of the partition's keys are below it, and whether it is one of them.
-/
def pieceWord (part : List Bytes) (q : Bytes) : ℕ := rankWord (OrdIndex.rankOf part q)
    (decide (q ∈ part))

section Walks

variable {o : OrdIndex} {part piece : List Bytes} {pre q : Bytes} {r : ℕ}

/-- The key at a key's rank is the key, or the partition does not have it. -/
lemma getElem?_rankOf (hpart : part.Pairwise (· < ·)) : part[OrdIndex.rankOf part q]? = some q ↔
    q ∈ part := by
  refine ⟨fun h => List.mem_of_getElem? h, fun hmem => ?_⟩
  obtain ⟨i, hi, rfl⟩ := List.mem_iff_getElem.mp hmem
  have hrank : OrdIndex.rankOf part part[i] = i := by
    refine OrdIndex.rankOf_eq hpart hi.le (fun j hj hji => ?_) (fun j hj hij => ?_)
    · exact List.pairwise_iff_getElem.mp hpart j i hj hi hji
    · rcases Nat.eq_or_lt_of_le hij with rfl | hlt
      · exact lt_irrefl _
      · exact not_lt_of_gt (List.pairwise_iff_getElem.mp hpart i j hi hj hlt)
  rw [hrank, List.getElem?_eq_getElem hi]

/-- Whether a rank's key is the one ranked, as either way says it. -/
lemma same_eq (hpart : part.Pairwise (· < ·)) :
    (decide (OrdIndex.rankOf part q < part.length) && decide
      (part[OrdIndex.rankOf part q]? = some q)) = decide (q ∈ part) := by
  rw [← Bool.decide_and]
  refine decide_eq_decide.mpr ?_
  rw [getElem?_rankOf hpart]
  refine ⟨And.right, fun hmem => ⟨?_, hmem⟩⟩
  exact (List.getElem?_eq_some_iff.mp ((getElem?_rankOf hpart).mpr hmem)).1

/-- **By the heads**, from any rank. -/
lemma rankByHeads_eq (h : o.Of part pre) (hpart : part.Pairwise (· < ·)) :
    rankByHeads o part.length (fun j => part[j]?) r q
    = some (OrdIndex.rankOf part q, decide (q ∈ part)) := by
  obtain ⟨e, w, hrun, hexact, -⟩ := h.seekExactHint_spec hpart q
  rw [rankByHeads, h.seekExactFrom_eq hpart, OrdIndex.seekExact, hrun]
  simp only [Option.map_some, Option.bind_eq_bind, Option.bind_some]
  obtain ⟨rank, exact'⟩ := e
  have hrank : rank = OrdIndex.rankOf part q := hexact.rank
  subst hrank
  rw [← same_eq hpart]
  congr 3
  cases exact' with
  | none => rfl
  | some b =>
      have hb := hexact.known b rfl
      rw [Option.getD_some]
      exact Bool.eq_iff_iff.mpr (hb.trans decide_eq_true_iff.symm)

/-- **By the records**, from a rank with only keys below before it. -/
lemma rankByRecords_eq (hpart : part.Pairwise (· < ·)) (hr : r ≤ OrdIndex.rankOf part q) :
    rankByRecords part.length (fun j => part[j]?) r q
    = (OrdIndex.rankOf part q, decide (q ∈ part)) := by
  have hle : OrdIndex.rankOf part q ≤ part.length := OrdIndex.rankOf_le
  have hbelow : ∀ j < part.length,
    ((part[j]?).any (fun k => decide (k < q)) = true ↔ j < OrdIndex.rankOf part q) := by
    intro j hj
    rw [List.getElem?_eq_getElem hj, Option.any_some, decide_eq_true_iff]
    exact OrdIndex.lt_iff_lt_rankOf hpart hj
  have hrank : (if r < part.length ∧ (part[r]?).any (fun k => decide (k < q)) = true then
      partitionPoint (fun j => (part[j]?).any (fun k => decide (k < q)))
        ((gallop (fun j => (part[j]?).any (fun k => decide (k < q))) part.length r 0).1 + 1)
        (gallop (fun j => (part[j]?).any (fun k => decide (k < q))) part.length r 0).2
      else r) = OrdIndex.rankOf part q := by
    by_cases hmore : r < part.length ∧ (part[r]?).any (fun k => decide (k < q)) = true
    · rw [if_pos hmore]
      obtain ⟨hlo, hhi, hend⟩ := gallop_spec (k := 0) hbelow ((hbelow r hmore.1).mp hmore.2) hle
      exact partitionPoint_eq hlo hhi (fun i _ hi => hbelow i (hi.trans_le hend))
    · rw [if_neg hmore]
      by_contra hne
      have hlt : r < part.length := by omega
      exact hmore ⟨hlt, (hbelow r hlt).mpr (by omega)⟩
  rw [rankByRecords]
  dsimp only
  rw [hrank, same_eq hpart]

/-- Ranks ascend with the keys. -/
lemma rankOf_mono {k l : Bytes} (hkl : k ≤ l) :
    OrdIndex.rankOf part k ≤ OrdIndex.rankOf part l := by
  refine (List.monotone_filter_right part (fun x hx => ?_)).length_le
  exact decide_eq_true ((of_decide_eq_true hx).trans_le hkl)

/-- **The walk**, by a way that ranks a key from any rank with only keys below before it. -/
lemma ranksWalk_eq {rankFrom : ℕ → Bytes → Option (ℕ × Bool)} (hpiece : piece.Pairwise (· < ·))
    (hfrom : ∀ r q, r ≤ OrdIndex.rankOf part q → rankFrom r q
    = some (OrdIndex.rankOf part q, decide (q ∈ part)))
    (n : ℕ) : ∀ i r, n + i = piece.length → (∀ q ∈ piece.drop i, r ≤ OrdIndex.rankOf part q) →
      ranksWalk rankFrom (fun j => piece[j]?) n i r
      = some ((piece.drop i).map (pieceWord part)) := by
  induction n with
  | zero =>
      intro i r hlen _
      rw [ranksWalk, List.drop_eq_nil_of_le (by omega)]
      rfl
  | succ n ih =>
      intro i r hlen hr
      have hi : i < piece.length := by omega
      have hdrop := List.drop_eq_getElem_cons hi
      have hhere := hr piece[i] (by rw [hdrop]; exact List.mem_cons_self ..)
      rw [ranksWalk, List.getElem?_eq_getElem hi]
      simp only [Option.bind_eq_bind, Option.bind_some, hfrom r _ hhere]
      rw [ih (i + 1) _ (by omega), Option.bind_some, hdrop, List.map_cons]
      · rfl
      · -- the keys behind are above this one
        intro q hq
        refine rankOf_mono (le_of_lt ?_)
        have hpairs := hpiece.sublist (List.drop_sublist i piece)
        rw [hdrop] at hpairs
        exact (List.pairwise_cons.mp hpairs).1 q hq

end Walks

/-! ## Cuts -/

section Cuts

variable {o : OrdIndex} {part : List Bytes} {pre q : Bytes} {rank stop : ℕ}

/-- **A cut carried is the cut searched for**, in a window with only keys below before it. -/
lemma cutAt_eq (h : o.Of part pre) (hpart : part.Pairwise (· < ·)) (hfits : part.length < 2 ^ 31)
    (hwin : rank ≤ stop) (hstop : stop ≤ part.length) (hrank : rank ≤ OrdIndex.rankOf part q) :
    ∃ read, cutAt o (fun i => part[i]?) rank stop q
    = some (cutKnown (pieceWord part q) rank stop, read) := by
  have hle : OrdIndex.rankOf part q ≤ part.length := OrdIndex.rankOf_le
  obtain ⟨hshift, hbit⟩ := rankWord_parts (decide (q ∈ part)) (hle.trans_lt hfits)
  obtain ⟨⟨r, exact'⟩, hseek, hexact⟩ := h.seekInExact_spec hpart q hwin hstop
  have hr : r = min stop (OrdIndex.rankOf part q) := by
    have hmax : r = max rank (min stop (OrdIndex.rankOf part q)) := hexact.rank
    omega
  have hfound : (part[r]? = some q ↔ q ∈ part) ∨ stop ≤ r := by
    by_cases hin : stop ≤ r
    · exact Or.inr hin
    · rw [show r = OrdIndex.rankOf part q by omega]
      exact Or.inl (getElem?_rankOf hpart)
  rw [cutAt, hseek, cutKnown, pieceWord]
  simp only [Option.bind_eq_bind, Option.bind_some, hshift, hbit, decide_eq_true_eq,
    Nat.max_eq_left hrank]
  by_cases hout : stop ≤ r
  · rw [if_pos hout, if_pos (by omega)]
    exact ⟨false, rfl⟩
  · have hsame := hfound.resolve_right hout
    have hr' : OrdIndex.rankOf part q = r := by omega
    rw [if_neg hout, if_neg (by omega), hr']
    cases exact' with
    | some b =>
        cases b with
        | true => exact ⟨false, by rw [if_pos (hsame.mp (hexact.isKey rfl))]⟩
        | false =>
            have hnot : part[r]? ≠ some q := hexact.notKey rfl (not_le.mp hout)
            exact ⟨false, by rw [if_neg (fun hmem => hnot (hsame.mpr hmem))]⟩
    | none =>
        refine ⟨true, ?_⟩
        have hin : r < part.length := by omega
        have hkey : part[r]? = some part[r] := List.getElem?_eq_getElem hin
        have hnot : ¬ part[r] < q := by
          rw [OrdIndex.lt_iff_lt_rankOf hpart hin]
          omega
        dsimp only
        rw [hkey, Option.map_some, Option.getD_some]
        by_cases hmem : q ∈ part
        · have heq : part[r] = q := Option.some.inj (hkey.symm.trans (hsame.mpr hmem))
          rw [if_pos hmem, heq, cmp_of_eq]
        · have hne : part[r] ≠ q := fun heq => hmem (heq ▸ List.getElem_mem hin)
          rw [if_neg hmem, cmp_of_gt (lt_of_le_of_ne (not_lt.mp hnot) (Ne.symm hne))]

end Cuts

/-- **The ranks agree.**  For a partition and a piece whose keys are in order, the partition's index
composed over its keys, its prefix learned or not: both ways give each of the piece's keys how many
of the partition's keys are below it and whether the partition has it; and over any window of the
partition with only keys below before it, the cut carried in a key's word is the cut a search of the
window answers.  A word holds a rank below `2 ^ 31`: offsets of records are 32 bits, and a record is
more than four bytes. -/
theorem ranks_agree (part piece : List Bytes) (hpart : part.Pairwise (· < ·))
    (hpiece : piece.Pairwise (· < ·)) (hfits : part.length < 2 ^ 31) :
    ∀ o : OrdIndex, (o = OrdIndex.compose part ∨
        ∃ first, part.head? = some first ∧ o = (OrdIndex.compose part).learnPrefix first) →
      (∀ byHeads, ranksOver o part.length piece.length (fun i => part[i]?) (fun i => piece[i]?) byHeads
        = some (piece.map (fun q => (part.filter (· < q)).length * 2 + (decide (q ∈ part)).toNat))) ∧
      ∀ (q : Bytes) (rank stop : ℕ), rank ≤ stop → stop ≤ part.length → (∀ i < rank, ∀ k, part[i]? = some k → k < q) →
        ∃ read, cutAt o (fun i => part[i]?) rank stop q
          = some (cutKnown ((part.filter (· < q)).length * 2 + (decide (q ∈ part)).toNat) rank stop, read) := by
  intro o ho
  have hof : ∃ pre, o.Of part pre := by
    rcases ho with rfl | ⟨first, hfirst, rfl⟩
    · exact ⟨_, OrdIndex.of_compose hpart⟩
    · exact ⟨_, (OrdIndex.of_compose hpart).learnPrefix hfirst⟩
  obtain ⟨pre, h⟩ := hof
  have hword : ∀ q, pieceWord part q = (part.filter (· < q)).length * 2 +
    (decide (q ∈ part)).toNat := by
    intro q
    exact rankWord_eq (OrdIndex.rankOf_le.trans_lt hfits)
  refine ⟨fun byHeads => ?_, fun q rank stop hwin hstop hbelow => ?_⟩
  · rw [← funext hword, ranksOver]
    by_cases hheads : byHeads = true
    · rw [if_pos hheads]
      exact ranksWalk_eq hpiece (fun r q _ => rankByHeads_eq h hpart) piece.length 0 0
        (Nat.add_zero _) (fun q _ => Nat.zero_le _)
    · rw [if_neg hheads, ranksOverRecords]
      exact ranksWalk_eq hpiece (fun r q hr => congrArg some (rankByRecords_eq hpart hr))
        piece.length 0 0 (Nat.add_zero _) (fun q _ => Nat.zero_le _)
  · rw [← hword]
    refine cutAt_eq h hpart hfits hwin hstop ?_
    by_contra hgt
    have hin : OrdIndex.rankOf part q < part.length := by omega
    have hlt := hbelow _ (not_le.mp hgt) _ (List.getElem?_eq_getElem hin)
    exact lt_irrefl _ ((OrdIndex.lt_iff_lt_rankOf hpart hin).mp hlt)

/-- Keys below the first, tied on their heads with a key, and past the last. -/
theorem ranks_agree_ties :
    ranksOver (OrdIndex.compose [[7], [7, 0]]) 2 3 (fun i => ([[7], [7, 0]] : List Bytes)[i]?)
      (fun i => ([[6], [7, 0], [8]] : List Bytes)[i]?) true = some [0, 3, 4] := by
  obtain ⟨hranks, -⟩ := ranks_agree [[7], [7, 0]] [[6], [7, 0], [8]] (by decide) (by decide)
    (by decide) _ (Or.inl rfl)
  have h := hranks true
  rw [show ([[6], [7, 0], [8]] : List Bytes).map
    (fun q => (([[7], [7, 0]] : List Bytes).filter (· < q)).length * 2 +
    (decide (q ∈ ([[7], [7, 0]] : List Bytes))).toNat) = [0, 3, 4] by decide] at h
  exact h

end Supdb

import Supdb.Lib.Trap
import Supdb.Lib.WinnerTree
import Supdb.SealOrder

/-!
# Merging the runs of pieces

What the pieces hold of a block is merged into one list by key, and by piece where keys are equal.
Each piece's keys are a run, in order; `merge_runs` plays a tournament over the heads of the runs,
takes the winner, moves its run on, and plays again the matches the run is in.  Two heads are
compared by the first sixteen bytes of their keys, and by the keys and the pieces where those agree.

* `firstOf` – whether one head comes first.  `firstOf_eq` – it is the order of the heads, a spent
  run and a leaf without a run being after every key.
* `mergeRuns` – the tree, and the loop that empties the runs.
* `mergeRuns_sorts` – **the merge is the sort**, for every list of runs: no index is outside its
  list, and what is returned is what was held, strictly in order.
-/

namespace Supdb

open StorageLib Run

/-- A key a piece holds over the block: the key, the piece, the key's rank in it and its cut. -/
structure HeldKey where
  key : Bytes
  piece : ℕ
  rank : ℕ
  cut : ℕ
  deriving DecidableEq, Inhabited, Repr

/-- `usize::MAX`. -/
def USIZE_MAX : ℕ := 2 ^ 64 - 1

/-! ## The merge -/

/-- Whether a run has a head. -/
def liveRun (runs : List (ℕ × ℕ)) (r : ℕ) : Bool := runs[r]?.any (fun run => run.1 < run.2)

/-- `first`: whether run `a`'s head comes before run `b`'s. -/
def firstOf (held : List HeldKey) (pre : List (ℕ × ℕ)) (runs : List (ℕ × ℕ)) (a b : ℕ) :
    Run Unit Bool :=
  if ¬ liveRun runs a then ok false
  else if ¬ liveRun runs b then ok true
  else do
    let x ← index runs a
    let y ← index runs b
    let px ← index pre x.1
    let py ← index pre y.1
    match (cmp px.1 py.1).then (cmp px.2 py.2) with
    | .lt => ok true
    | .gt => ok false
    | .eq =>
        let hx ← index held x.1
        let hy ← index held y.1
        ok (decide ((cmp hx.key hy.key).then (cmp hx.piece hy.piece) = .lt))

/-- A match played: the winner into its node. -/
def playNode (held : List HeldKey) (pre : List (ℕ × ℕ)) (runs : List (ℕ × ℕ)) (tree : List ℕ)
    (n : ℕ) : Run Unit (List ℕ) := do
  let a ← index tree (2 * n)
  let b ← index tree (2 * n + 1)
  let wins ← firstOf held pre runs b a
  store tree n (if wins then b else a)

/-- The matches from a node up. -/
def replayFrom (held : List HeldKey) (pre : List (ℕ × ℕ)) (runs : List (ℕ × ℕ)) (n : ℕ)
    (tree : List ℕ) : Run Unit (List ℕ) :=
  if _h : 1 ≤ n then do
    let tree ← playNode held pre runs tree n
    replayFrom held pre runs (n / 2) tree
  else ok tree
termination_by n
decreasing_by omega

/-- The check of the order of a run, a head and the key after it. -/
def checkRun (held : List HeldKey) (run : ℕ × ℕ) : Run Unit Unit :=
  if run.2 ≤ run.1 + 1 then ok ()
  else do
    let x ← index held run.1
    let y ← index held (run.1 + 1)
    Run.assert (x.key < y.key)

/-- The loop: the winner's head out, its run moved on, its matches played again. -/
def mergeLoop (held : List HeldKey) (pre : List (ℕ × ℕ)) (width : ℕ) (runs : List (ℕ × ℕ))
    (tree : List ℕ) (out : List HeldKey) : Run Unit (List HeldKey) :=
  if _h : out.length < held.length then do
    let r ← index tree 1
    let run ← index runs r
    checkRun held run
    let x ← index held run.1
    let runs ← store runs r (run.1 + 1, run.2)
    let tree ← replayFrom held pre runs ((width + r) / 2) tree
    mergeLoop held pre width runs tree (out ++ [x])
  else ok out
termination_by held.length - out.length
decreasing_by
  rw [List.length_append, List.length_singleton]
  omega

/-- `next_power_of_two`. -/
def nextPowerOfTwo (n : ℕ) : ℕ := 2 ^ Nat.clog 2 n

/-- The tree before a match is played: the leaves from `width` on. -/
def seated (width : ℕ) : List ℕ := List.replicate width USIZE_MAX ++ List.range width

/-- `merge_runs`. -/
def mergeRuns (held : List HeldKey) (pre : List (ℕ × ℕ)) (runs : List (ℕ × ℕ)) :
    Run Unit (List HeldKey) := do
  let width := nextPowerOfTwo runs.length
  let tree ← (List.range' 1 (width - 1)).reverse.foldlM (playNode held pre runs) (seated width)
  mergeLoop held pre width runs tree []

/-! ## The order of the heads -/

/-- The order of the merge: by the key, then by the piece. -/
def HeldKey.order (x : HeldKey) : Bytes ×ₗ ℕ := toLex (x.key, x.piece)

/-- The prefixes of the keys. -/
def prefixesOf (held : List HeldKey) : List (ℕ × ℕ) := held.map (fun x => keyPrefix x.key)

/-- A run's head, and after every key where it has none. -/
def headOrder (held : List HeldKey) (runs : List (ℕ × ℕ)) (r : ℕ) : WithTop (Bytes ×ₗ ℕ) :=
  if liveRun runs r then (runs[r]?.bind (fun run => held[run.1]?)).elim ⊤
    (fun x => (x.order : WithTop (Bytes ×ₗ ℕ)))
  else ⊤

section First

variable {held : List HeldKey} {runs : List (ℕ × ℕ)} {a b : ℕ}

/-- Prefixes in order are those of keys in order. -/
lemma lt_of_keyPrefix {k l : Bytes}
    (h : (cmp (keyPrefix k).1 (keyPrefix l).1).then (cmp (keyPrefix k).2 (keyPrefix l).2) = .lt) :
    k < l := by
  obtain ⟨⟨-, hk⟩, hnk⟩ := @prefixNat_keyPrefix k 0
  obtain ⟨⟨-, hl⟩, hnl⟩ := @prefixNat_keyPrefix l 0
  dsimp only at hk hl
  refine lt_of_beNat_padded_lt (n := 16) ?_
  rw [← hnk, ← hnl, prefixNat, prefixNat]
  dsimp only
  rw [Ordering.then_eq_lt, cmp_eq_lt_iff, cmp_eq_lt_iff, cmp_eq_eq_iff] at h
  rcases h with h | ⟨h, h'⟩
  · omega
  · omega

lemma order_lt_iff {x y : HeldKey} : x.order < y.order ↔
    (cmp x.key y.key).then (cmp x.piece y.piece) = .lt := by
  rw [HeldKey.order, HeldKey.order, Prod.Lex.toLex_lt_toLex, Ordering.then_eq_lt, cmp_eq_lt,
    cmp_eq_lt_iff]
  have hkey : x.key = y.key ↔ cmp x.key y.key = .eq := by
    constructor
    · intro h
      rw [h, cmp_of_eq]
    · exact eq_of_cmp_eq
  exact or_congr Iff.rfl (and_congr_left' hkey)

/-- The order is the order of the keys where they differ. -/
lemma order_lt_of_key {x y : HeldKey} (h : x.key < y.key) : x.order < y.order := by
  rw [HeldKey.order, HeldKey.order, Prod.Lex.toLex_lt_toLex]
  exact Or.inl h

/-- The runs that have a head have it in the list. -/
def RunsInside (held : List HeldKey) (runs : List (ℕ × ℕ)) : Prop := ∀ run ∈ runs, run.1 < run.2 →
    run.2 ≤ held.length

/-- The head of a run that has one. -/
lemma liveRun_spec (hin : RunsInside held runs) (hlive : liveRun runs a = true) :
    ∃ run x, runs[a]? = some run ∧ run.1 < run.2 ∧ held[run.1]? = some x ∧
    headOrder held runs a = x.order := by
  have hget := hlive
  rw [liveRun] at hget
  cases hrun : runs[a]? with
  | none =>
      rw [hrun] at hget
      exact absurd hget (by simp)
  | some run =>
      rw [hrun] at hget
      have hlt : run.1 < run.2 := of_decide_eq_true hget
      have hlen : run.1 < held.length := hlt.trans_le (hin run (List.mem_of_getElem? hrun) hlt)
      have hx := List.getElem?_eq_getElem hlen
      refine ⟨run, held[run.1], rfl, hlt, hx, ?_⟩
      rw [headOrder, if_pos hlive, hrun, Option.bind_some, hx]
      rfl

lemma headOrder_spent (h : ¬ liveRun runs a = true) : headOrder held runs a = ⊤ := if_neg h

/-- **`first` is the order of the heads**, and no index of it is outside its list. -/
lemma firstOf_eq (hin : RunsInside held runs) (a b : ℕ) :
    firstOf held (prefixesOf held) runs a b
    = ok (decide (headOrder held runs a < headOrder held runs b)) := by
  rw [firstOf]
  by_cases ha : liveRun runs a = true
  · obtain ⟨ra, x, hra, -, hx, hoa⟩ := liveRun_spec hin ha
    rw [if_neg (not_not.mpr ha)]
    by_cases hb : liveRun runs b = true
    · obtain ⟨rb, y, hrb, -, hy, hob⟩ := liveRun_spec hin hb
      have hpx : (index (prefixesOf held) ra.1 : Run Unit (ℕ × ℕ)) = ok (keyPrefix x.key) := by
        rw [index, prefixesOf, List.getElem?_map, hx]
        rfl
      have hpy : (index (prefixesOf held) rb.1 : Run Unit (ℕ × ℕ)) = ok (keyPrefix y.key) := by
        rw [index, prefixesOf, List.getElem?_map, hy]
        rfl
      have hia : (index runs a : Run Unit (ℕ × ℕ)) = ok ra := by rw [index, hra]
      have hib : (index runs b : Run Unit (ℕ × ℕ)) = ok rb := by rw [index, hrb]
      have hhx : (index held ra.1 : Run Unit HeldKey) = ok x := by rw [index, hx]
      have hhy : (index held rb.1 : Run Unit HeldKey) = ok y := by rw [index, hy]
      rw [if_neg (not_not.mpr hb), hia, ok_bind, hib, ok_bind, hpx, ok_bind, hpy, ok_bind, hoa, hob]
      cases hpre : (cmp (keyPrefix x.key).1 (keyPrefix y.key).1).then (cmp (keyPrefix x.key).2 (keyPrefix y.key).2) with
      | lt =>
          have hlt : x.order < y.order := order_lt_of_key (lt_of_keyPrefix hpre)
          dsimp only
          rw [decide_eq_true (WithTop.coe_lt_coe.mpr hlt)]
      | gt =>
          have hswap : (cmp (keyPrefix y.key).1 (keyPrefix x.key).1).then
              (cmp (keyPrefix y.key).2 (keyPrefix x.key).2) = .lt := by
            rw [← cmp_swap, ← cmp_swap (keyPrefix x.key).2, ← Ordering.swap_then, hpre]
            rfl
          have hlt : y.order < x.order := order_lt_of_key (lt_of_keyPrefix hswap)
          dsimp only
          rw [decide_eq_false (fun h => absurd (WithTop.coe_lt_coe.mp h) (not_lt.mpr hlt.le))]
      | eq =>
          dsimp only
          rw [hhx, ok_bind, hhy, ok_bind]
          congr 1
          rw [decide_eq_decide, ← order_lt_iff, WithTop.coe_lt_coe]
    · rw [if_pos hb, hoa, headOrder_spent hb, decide_eq_true (WithTop.coe_lt_top _)]
  · rw [if_pos ha, headOrder_spent ha, decide_eq_false not_top_lt]

end First

/-! ## The tree -/

section Tree

variable {held : List HeldKey} {runs : List (ℕ × ℕ)} {tree : List ℕ} {width n r : ℕ}

/-- Who stands at each node. -/
def standsAt (tree : List ℕ) (n : ℕ) : ℕ := tree.getD n 0

lemma index_tree (h : n < tree.length) : (index tree n : Run Unit ℕ) = ok (standsAt tree n) := by
  rw [index_eq h, standsAt, List.getD_eq_getElem?_getD, List.getElem?_eq_getElem h]
  rfl

lemma standsAt_set (h : n < tree.length) (a : ℕ) :
    standsAt (tree.set n a) = Function.update (standsAt tree) n a := by
  funext m
  rw [standsAt, List.getD_eq_getElem?_getD, List.getElem?_set]
  by_cases hm : m = n
  · rw [hm, Function.update_self, if_pos rfl, if_pos h]
    rfl
  · rw [Function.update_of_ne hm, if_neg (Ne.symm hm), standsAt, List.getD_eq_getElem?_getD]

/-- **A match played** puts the winner into its node. -/
lemma playNode_eq (hin : RunsInside held runs) (hlen : tree.length = 2 * width) (hlt : n < width) :
    playNode held (prefixesOf held) runs tree n = ok (tree.set n
      (winner (headOrder held runs) (standsAt tree (2 * n)) (standsAt tree (2 * n + 1)))) := by
  rw [playNode, index_tree (by omega), ok_bind, index_tree (by omega), ok_bind,
    firstOf_eq hin, ok_bind, store_eq _ (by omega), winner]
  simp only [decide_eq_true_eq]

/-- **The tree is built.** -/
lemma playAll_spec (hin : RunsInside held runs) (n k : ℕ) (hk : 0 < n) (hwidth : n + k = width) :
    ∃ tree, (List.range' n k).reverse.foldlM (playNode held (prefixesOf held) runs) (seated width)
      = ok tree ∧
      tree.length = 2 * width ∧ PlayedFrom (headOrder held runs) width n (standsAt tree) := by
  induction k generalizing n with
  | zero =>
      refine ⟨_, rfl, ?_, ?_, ?_⟩
      · rw [seated, List.length_append, List.length_replicate, List.length_range]
        omega
      · intro i hi
        rw [standsAt, seated, List.getD_eq_getElem?_getD, List.getElem?_append_right (by simp)]
        simp [hi]
      · intro m hm hlt
        omega
  | succ k ih =>
      obtain ⟨tree, hrun, hlen, hplayed⟩ := ih (n + 1) (by omega) (by omega)
      refine ⟨tree.set n (winner (headOrder held runs) (standsAt tree (2 * n)) (standsAt tree (2 * n + 1))), ?_, ?_, ?_⟩
      · rw [List.range'_succ, List.reverse_cons, List.foldlM_append, hrun, ok_bind,
          List.foldlM_cons, playNode_eq hin hlen (by omega), ok_bind]
        rfl
      · rw [List.length_set, hlen]
      · rw [standsAt_set (by omega)]
        exact hplayed.step (by omega) hk

/-- **The matches from a node up** are played again. -/
lemma replayFrom_spec (hin : RunsInside held runs) (hlen : tree.length = 2 * width)
    (hlt : n < width) (h : PlayedBut (headOrder held runs) width n (standsAt tree)) :
    ∃ tree', replayFrom held (prefixesOf held) runs n tree = ok tree' ∧ tree'.length = 2 * width ∧
      WinnerTree (headOrder held runs) width (standsAt tree') := by
  induction n using Nat.strong_induction_on generalizing tree with
  | _ n ih =>
      rw [replayFrom]
      by_cases hn : 1 ≤ n
      · have hplay := h.step hlt
        rw [← standsAt_set (by omega)] at hplay
        obtain ⟨tree', hrun, hlen', htree⟩ := ih (n / 2) (by omega) (by rw [List.length_set, hlen]) (by omega) hplay
        refine ⟨tree', ?_, hlen', htree⟩
        rw [dif_pos hn, playNode_eq hin hlen hlt, ok_bind, hrun]
      · obtain rfl : n = 0 := by omega
        rw [dif_neg hn]
        exact ⟨tree, rfl, hlen, h.done⟩

end Tree

/-! ## What is left -/

/-- The keys of a run. -/
def runKeys (held : List HeldKey) (run : ℕ × ℕ) : List HeldKey :=
  (held.drop run.1).take (run.2 - run.1)

/-- The keys the runs have left. -/
def leftKeys (held : List HeldKey) (runs : List (ℕ × ℕ)) : List HeldKey :=
  runs.flatMap (runKeys held)

/-- The places of a run. -/
def runPlaces (run : ℕ × ℕ) : List ℕ := List.range' run.1 (run.2 - run.1)

/-- **The runs of pieces**: between them they hold every place of the list once, each is of one
piece and strictly in key order, and no two with keys are of the same piece. -/
structure PieceRuns (held : List HeldKey) (runs : List (ℕ × ℕ)) : Prop where
  parts : (runs.flatMap runPlaces).Perm (List.range held.length)
  ascending : ∀ run ∈ runs, (runKeys held run).Pairwise (fun x y => x.key < y.key)
  onePiece : ∀ run ∈ runs, ∃ p, ∀ x ∈ runKeys held run, x.piece = p
  apart : runs.Pairwise (fun a b => ∀ x ∈ runKeys held a, ∀ y ∈ runKeys held b, x.piece ≠ y.piece)

section Left

variable {held : List HeldKey} {runs : List (ℕ × ℕ)} {run : ℕ × ℕ} {r : ℕ} {x y : HeldKey}

/-- A run's head is first of its keys. -/
lemma runKeys_cons (hlt : run.1 < run.2) (hx : held[run.1]? = some x) :
    runKeys held run = x :: runKeys held (run.1 + 1, run.2) := by
  obtain ⟨hlen, rfl⟩ := List.getElem?_eq_some_iff.mp hx
  rw [runKeys, List.drop_eq_getElem_cons hlen, show run.2 - run.1 = run.2 - (run.1 + 1) +
    1 by omega, List.take_succ_cons, runKeys]

lemma runKeys_spent (h : ¬ run.1 < run.2) : runKeys held run = [] := by
  rw [runKeys, show run.2 - run.1 = 0 by omega, List.take_zero]

/-- The runs with their places hold the keys at them. -/
lemma PieceRuns.inside (h : PieceRuns held runs) : RunsInside held runs := by
  intro run hrun hlt
  have hmem : run.2 - 1 ∈ runs.flatMap runPlaces := by
    refine List.mem_flatMap.mpr ⟨run, hrun, ?_⟩
    rw [runPlaces, List.mem_range'_1]
    omega
  have hlast := List.mem_range.mp (h.parts.mem_iff.mp hmem)
  omega

/-- The keys of a run are those at its places. -/
lemma runKeys_eq_map (hin : run.1 < run.2 → run.2 ≤ held.length) :
    runKeys held run = (runPlaces run).map (fun i => held.getD i default) := by
  refine List.ext_getElem? (fun i => ?_)
  rw [runKeys, runPlaces, List.getElem?_map, List.getElem?_take, List.getElem?_drop]
  by_cases hi : i < run.2 - run.1
  · rw [if_pos hi, List.getElem?_range' hi, Option.map_some, List.getD_eq_getElem?_getD,
      Nat.one_mul, List.getElem?_eq_getElem (by omega)]
    rfl
  · rw [if_neg hi, List.getElem?_eq_none (by rw [List.length_range']; omega), Option.map_none]

/-- **Nothing but what is held**, and all of it. -/
lemma PieceRuns.leftKeys_perm (h : PieceRuns held runs) : (leftKeys held runs).Perm held := by
  have hmap : leftKeys held runs = (runs.flatMap runPlaces).map (fun i => held.getD i default) := by
    rw [leftKeys, List.map_flatMap]
    exact List.flatMap_congr (fun run hrun => runKeys_eq_map (h.inside run hrun))
  rw [hmap]
  have hperm := h.parts.map (fun i => held.getD i default)
  rwa [map_getD_range] at hperm

/-- No two keys held are level. -/
lemma PieceRuns.nodup (h : PieceRuns held runs) : (held.map HeldKey.order).Nodup := by
  refine (h.leftKeys_perm.map HeldKey.order).nodup_iff.mp ?_
  rw [List.Nodup, List.pairwise_map, leftKeys, List.pairwise_flatMap]
  constructor
  · intro run hrun
    refine (h.ascending run hrun).imp (fun hlt => ?_)
    exact (order_lt_of_key hlt).ne
  · refine h.apart.imp (fun happart x hx y hy heq => ?_)
    exact happart x hx y hy (congrArg (fun o => (ofLex o).2) heq)

/-- A run's head out, and its keys less that. -/
lemma leftKeys_set (hrun : runs[r]? = some run) (hlt : run.1 < run.2) (hx : held[run.1]? = some x) :
    (leftKeys held runs).Perm (x :: leftKeys held (runs.set r (run.1 + 1, run.2))) := by
  induction runs generalizing r with
  | nil => exact absurd hrun (by simp)
  | cons first rest ih =>
      cases r with
      | zero =>
          obtain rfl := Option.some.inj hrun
          rw [leftKeys, leftKeys, List.set_cons_zero, List.flatMap_cons, List.flatMap_cons,
            runKeys_cons hlt hx, List.cons_append]
      | succ r =>
          rw [leftKeys, leftKeys, List.set_cons_succ, List.flatMap_cons, List.flatMap_cons]
          exact ((ih hrun).append_left _).trans List.perm_middle

/-- A key left is in a run, whose head is not behind it. -/
lemma headOrder_le (hin : RunsInside held runs)
    (hasc : ∀ run ∈ runs, (runKeys held run).Pairwise (fun x y => x.key < y.key))
    (hy : y ∈ leftKeys held runs) : ∃ r < runs.length, headOrder held runs r ≤ y.order := by
  obtain ⟨run, hmem, hin'⟩ := List.mem_flatMap.mp hy
  obtain ⟨r, hr, rfl⟩ := List.mem_iff_getElem.mp hmem
  refine ⟨r, hr, ?_⟩
  have hlt : runs[r].1 < runs[r].2 := by
    by_contra hspent
    rw [runKeys_spent hspent] at hin'
    exact absurd hin' List.not_mem_nil
  have hlive : liveRun runs r = true := by
    rw [liveRun, List.getElem?_eq_getElem hr]
    exact decide_eq_true hlt
  obtain ⟨run, x, hrun, -, hx, horder⟩ := liveRun_spec hin hlive
  rw [List.getElem?_eq_getElem hr, Option.some.injEq] at hrun
  have hpair := hasc runs[r] hmem
  rw [hrun] at hpair hin' hlt
  rw [runKeys_cons hlt hx] at hpair hin'
  rw [horder]
  rcases List.mem_cons.mp hin' with rfl | htail
  · exact le_refl _
  · exact WithTop.coe_le_coe.mpr (order_lt_of_key ((List.pairwise_cons.mp hpair).1 y htail)).le

/-- The other runs keep their heads. -/
lemma headOrder_set {i : ℕ} (hne : i ≠ r) :
    headOrder held (runs.set r run) i = headOrder held runs i := by
  rw [headOrder, headOrder, liveRun, liveRun, List.getElem?_set_ne hne.symm]

end Left

/-! ## The loop -/

/-- What a turn keeps: the runs are inside the list and in order, what is out and what is left are
what was held, what is out is in order, and all of it is before what is left. -/
structure Merging (held : List HeldKey) (runs : List (ℕ × ℕ)) (out : List HeldKey) : Prop where
  inside : RunsInside held runs
  ascending : ∀ run ∈ runs, (runKeys held run).Pairwise (fun x y => x.key < y.key)
  whole : (out ++ leftKeys held runs).Perm held
  sorted : out.Pairwise (fun x y => x.order < y.order)
  least : ∀ x ∈ out, ∀ y ∈ leftKeys held runs, x.order < y.order

section Loop

variable {held : List HeldKey} {runs : List (ℕ × ℕ)} {tree : List ℕ} {out : List HeldKey}
  {width r : ℕ} {run : ℕ × ℕ} {x : HeldKey}

/-- The merge begins with nothing out. -/
lemma PieceRuns.merging (h : PieceRuns held runs) : Merging held runs [] where
  inside := h.inside
  ascending := h.ascending
  whole := h.leftKeys_perm
  sorted := List.Pairwise.nil
  least := by
    intro x hx
    exact absurd hx List.not_mem_nil

/-- **A turn** takes the least head. -/
lemma Merging.step (h : Merging held runs out) (hnodup : (held.map HeldKey.order).Nodup)
    (hrun : runs[r]? = some run) (hlt : run.1 < run.2) (hx : held[run.1]? = some x)
    (hleast : ∀ y ∈ leftKeys held runs, x.order ≤ y.order) :
    Merging held (runs.set r (run.1 + 1, run.2)) (out ++ [x]) := by
  have hperm := leftKeys_set hrun hlt hx
  have hwhole : ((out ++ [x]) ++ leftKeys held (runs.set r (run.1 + 1, run.2))).Perm held := by
    rw [List.append_assoc, List.singleton_append]
    exact (hperm.symm.append_left out).trans h.whole
  have hmem : ∀ y ∈ leftKeys held (runs.set r (run.1 + 1, run.2)), y ∈ leftKeys held runs := by
    intro y hy
    exact hperm.mem_iff.mpr (List.mem_cons_of_mem _ hy)
  have hxleft : x ∈ leftKeys held runs := hperm.mem_iff.mpr List.mem_cons_self
  -- the head is not level with what it leaves
  have hne : ∀ y ∈ leftKeys held (runs.set r (run.1 + 1, run.2)), x.order ≠ y.order := by
    have hall := (hwhole.map HeldKey.order).nodup_iff.mpr hnodup
    rw [List.map_append, List.map_append] at hall
    have hdisj := (List.nodup_append.mp hall).2.2
    intro y hy
    refine hdisj _ (List.mem_append_right _ ?_) _ (List.mem_map_of_mem hy)
    exact List.mem_singleton_self _
  refine ⟨?_, ?_, hwhole, ?_, ?_⟩
  · intro run' hrun' hlt'
    rcases List.mem_or_eq_of_mem_set hrun' with hold | rfl
    · exact h.inside run' hold hlt'
    · exact h.inside run (List.mem_of_getElem? hrun) hlt
  · intro run' hrun'
    rcases List.mem_or_eq_of_mem_set hrun' with hold | rfl
    · exact h.ascending run' hold
    · have hpair := h.ascending run (List.mem_of_getElem? hrun)
      rw [runKeys_cons hlt hx] at hpair
      exact (List.pairwise_cons.mp hpair).2
  · refine List.pairwise_append.mpr ⟨h.sorted, List.pairwise_singleton _ _, ?_⟩
    intro y hy z hz
    rw [List.mem_singleton.mp hz]
    exact h.least y hy x hxleft
  · intro y hy z hz
    rcases List.mem_append.mp hy with hout | hone
    · exact h.least y hout z (hmem z hz)
    · rw [List.mem_singleton.mp hone]
      exact lt_of_le_of_ne (hleast z (hmem z hz)) (hne z hz)

/-- A run in order passes its check. -/
lemma checkRun_eq (hpair : (runKeys held run).Pairwise (fun x y => x.key < y.key))
    (hlt : run.1 < run.2) (hin : run.2 ≤ held.length) : checkRun held run = ok () := by
  rw [checkRun]
  by_cases hlast : run.2 ≤ run.1 + 1
  · rw [if_pos hlast]
  · have hx : run.1 < held.length := by omega
    have hy : run.1 + 1 < held.length := by omega
    rw [runKeys_cons hlt (List.getElem?_eq_getElem hx),
      runKeys_cons (by dsimp only; omega) (List.getElem?_eq_getElem hy)] at hpair
    rw [if_neg hlast, index_eq hx, ok_bind, index_eq hy, ok_bind,
      assert_eq ((List.pairwise_cons.mp hpair).1 _ List.mem_cons_self)]

/-- **The loop** empties the runs in order. -/
lemma mergeLoop_spec (hnodup : (held.map HeldKey.order).Nodup) (h : Merging held runs out)
    (hlen : tree.length = 2 * width) (hwidth : runs.length ≤ width) (hpos : 0 < width)
    (htree : WinnerTree (headOrder held runs) width (standsAt tree)) :
    ∃ all, mergeLoop held (prefixesOf held) width runs tree out = ok all ∧ all.Perm held ∧
      all.Pairwise (fun x y => x.order < y.order) := by
  have hcount := h.whole.length_eq
  rw [List.length_append] at hcount
  induction hleft : (leftKeys held runs).length generalizing runs tree out with
  | zero =>
      rw [mergeLoop, dif_neg (by omega)]
      have hwhole := h.whole
      rw [List.length_eq_zero_iff.mp hleft, List.append_nil] at hwhole
      exact ⟨out, rfl, hwhole, h.sorted⟩
  | succ k ih =>
      -- the root is not behind the head of any run, and some run has one
      have hroot : ∀ y ∈ leftKeys held runs, headOrder held runs (standsAt tree 1) ≤ y.order := by
        intro y hy
        obtain ⟨i, hi, hle⟩ := headOrder_le h.inside h.ascending hy
        exact (htree.root_le (hi.trans_le hwidth)).2.trans hle
      have hlive : liveRun runs (standsAt tree 1) = true := by
        by_contra hspent
        obtain ⟨y, hy⟩ := List.exists_mem_of_length_pos (l := leftKeys held runs) (by omega)
        have hle := hroot y hy
        rw [headOrder_spent hspent] at hle
        exact absurd hle (not_le.mpr (WithTop.coe_lt_top _))
      obtain ⟨run, x, hrun, hlt, hx, horder⟩ := liveRun_spec h.inside hlive
      have hmem := List.mem_of_getElem? hrun
      have hr : standsAt tree 1 < runs.length := (List.getElem?_eq_some_iff.mp hrun).1
      have hstep := h.step hnodup hrun hlt hx (fun y hy => by
        have hle := hroot y hy
        rw [horder] at hle
        exact WithTop.coe_le_coe.mp hle)
      obtain ⟨tree', hreplay, hlen', htree'⟩ := replayFrom_spec hstep.inside hlen
        (n := (width + standsAt tree 1) / 2) (by omega) (htree.changed (fun i hi => headOrder_set hi))
      have hperm := (leftKeys_set hrun hlt hx).length_eq
      rw [List.length_cons] at hperm
      obtain ⟨all, hloop, hall⟩ := ih hstep hlen' (by rw [List.length_set]; exact hwidth) htree'
        (by rw [List.length_append, List.length_singleton]; omega) (by omega)
      refine ⟨all, ?_, hall⟩
      have hindex : (index runs (standsAt tree 1) : Run Unit (ℕ × ℕ)) = ok run := by rw [index, hrun]
      have hhead : (index held run.1 : Run Unit HeldKey) = ok x := by rw [index, hx]
      rw [mergeLoop, dif_pos (by omega), index_tree (by omega), ok_bind, hindex, ok_bind,
        checkRun_eq (h.ascending run hmem) hlt (h.inside run hmem hlt), ok_bind, hhead, ok_bind,
        store_eq _ hr, ok_bind, hreplay, ok_bind, hloop]

end Loop

/-- **The merge is the sort**: no index is outside its list, and what is returned is what was held,
strictly in the order of the keys and, where keys are equal, of the pieces. -/
theorem mergeRuns_sorts (held : List HeldKey) (runs : List (ℕ × ℕ)) (h : PieceRuns held runs) :
    ∃ out, mergeRuns held (prefixesOf held) runs = ok out ∧ out.Perm held ∧
      out.Pairwise (fun x y => x.key < y.key ∨ x.key = y.key ∧ x.piece < y.piece) := by
  have hpos : 0 < nextPowerOfTwo runs.length := Nat.two_pow_pos _
  have hwidth : runs.length ≤ nextPowerOfTwo runs.length := Nat.le_pow_clog (by omega) _
  obtain ⟨tree, hbuild, hlen, hplayed⟩ := playAll_spec h.inside 1
    (nextPowerOfTwo runs.length - 1) Nat.one_pos (Nat.add_sub_cancel' hpos)
  obtain ⟨out, hloop, hperm, hsorted⟩ :=
    mergeLoop_spec h.nodup h.merging hlen hwidth hpos hplayed.done
  refine ⟨out, ?_, hperm, ?_⟩
  · rw [mergeRuns, hbuild, ok_bind, hloop]
  · refine hsorted.imp (fun hlt => ?_)
    exact Prod.Lex.toLex_lt_toLex.mp hlt

/-- Five runs, one of them empty: keys level in three pieces, and keys level in their first sixteen
bytes. -/
def fiveRunsHeld : List HeldKey :=
  [⟨[1], 4, 0, 1⟩, ⟨[1, 0], 4, 1, 2⟩, ⟨[1], 2, 0, 1⟩, ⟨List.replicate 17 7, 2, 1, 2⟩,
    ⟨[1], 3, 5, 6⟩, ⟨[2], 0, 0, 1⟩, ⟨List.replicate 16 7, 0, 1, 2⟩]

theorem mergeRuns_sorts_five : ∃ out,
    mergeRuns fiveRunsHeld (prefixesOf fiveRunsHeld) [(0, 2), (2, 4), (4, 5), (5, 5), (5, 7)]
      = ok out ∧
      out.Perm fiveRunsHeld ∧
      out.Pairwise (fun x y => x.key < y.key ∨ x.key = y.key ∧ x.piece < y.piece) := by
  refine mergeRuns_sorts _ _ ⟨?_, ?_, ?_, ?_⟩
  · exact List.Perm.refl _
  · decide
  · intro run hrun
    fin_cases hrun
    · exact ⟨4, by decide⟩
    · exact ⟨2, by decide⟩
    · exact ⟨3, by decide⟩
    · exact ⟨0, by decide⟩
    · exact ⟨0, by decide⟩
  · decide

end Supdb

import Supdb.Compact

/-!
# Segment ids

A segment's ordered index and its form file are named by its **id** and the sequence it ends at, so
no two live segments may share both.  One counter hands out the ids: a seal takes one for each
range, a direct run and a piece merge take one, and a partition merge a block, before it knows how
many pieces its keys make.

* `sliceCount` – how many that is; `sliceCount_le` bounds it fence by fence, by the cuts of its keys
  that separate.
* `Ids.step` – every job that takes ids, in flight and landed.
* `ids_unique` – where each merge's block is large enough for its keys, no id is given out twice.
* `ids_shared` – a merge of one range with more keys than eight pieces hold, and a direct run behind
  it.
-/

namespace Supdb

open StorageLib

/-! ## How many pieces a merge makes -/

/-- The pieces a merge's keys make: the slices of its slicer. -/
def sliceCount (fences : Option (List Fence)) (parts maxKeys : ℕ) (keys : List Bytes) : ℕ :=
  (((keys.foldl Slicer.push (Slicer.new fences parts maxKeys)).finish).map
    (fun r => r.1.length)).getD 0

/-- Whether a key lies below a fence's end. -/
def belowHi (f : Fence) (k : Bytes) : Bool := !f.2.any (fun h => h ≤ k)

/-- The keys each fence holds when they are walked: those below its end that no fence before it
took, less those below its start. -/
def heldIn : List Fence → List Bytes → List (List Bytes)
  | [], _ => []
  | f :: fs, keys =>
      (keys.takeWhile (belowHi f)).filter (fun k => f.1 ≤ k) :: heldIn fs (keys.dropWhile (belowHi f))

/-- The cut of the key at the `i`-th even rank. -/
def evenCut (keys : List Bytes) (per i : ℕ) : Bytes :=
  fenceLo (keys.getD (min (i * per) (keys.length - 1)) [])

/-- The even ranks, up to the `m`-th, whose cut separates their key from the one at the even rank
before. -/
def evenCuts (keys : List Bytes) (per m : ℕ) : ℕ :=
  (List.range m).countP (fun i => evenCut keys per i ≠ evenCut keys per (i + 1))

/-- The most pieces a fence's keys make: one, and one for each cut that separates. -/
def fenceSlices (maxKeys : ℕ) (keys : List Bytes) : ℕ :=
  let n := max (divCeil keys.length (max maxKeys 1)) 1
  evenCuts keys (divCeil keys.length n) (n - 1) + 1

section Slices

variable {keys : List Bytes} {f : Fence} {rest : List Fence} {s : Slicer}

/-- A bound makes no slice where no key lies below it. -/
lemma length_cutByBounds_le (keys : List Bytes) (b : ℕ) (lo : Bytes) (hi : Option Bytes)
    (bounds : List Bytes) : (cutByBounds keys 0 b lo hi bounds).1.length
      ≤ bounds.countP (fun x => 0 < keysBelow keys x) + 1 := by
  have hfold : ∀ (bs : List Bytes) (c : Cut), (bs.foldl (Cut.step keys 0 b) c).slices.length
      ≤ c.slices.length + bs.countP (fun x => 0 < keysBelow keys x) := by
    intro bs
    induction bs with
    | nil => exact fun c => le_refl _
    | cons x bs ih =>
        intro c
        rw [List.foldl_cons, List.countP_cons]
        refine (ih _).trans ?_
        rw [Cut.step]
        split_ifs with hcut hsep
        · rw [List.length_append, List.length_singleton]
          omega
        · -- a slice ends behind a key below its bound
          simp only [decide_eq_true_eq] at hsep
          omega
        · omega
        · omega
  have hall := hfold bounds ⟨[], [], 0, lo⟩
  simp only [cutByBounds]
  split_ifs
  · rw [List.length_append, List.length_singleton]
    simpa using hall
  · split
    · exact hall.trans (by simp)
    · exact hall.trans (by simp)

/-- **The bounds that cut anything off** are at the even ranks whose cuts separate. -/
lemma countP_evenBounds_le (hsorted : keys.Pairwise (· < ·)) (n per : ℕ) :
    (evenBounds (keys.map (List.take FENCE_MAX)) n per).countP
        (fun b => 0 < keysBelow (keys.map (List.take FENCE_MAX)) b) ≤ evenCuts keys per (n - 1) := by
  have hcut : ∀ i, fenceLo ((keys.map (List.take FENCE_MAX)).getD
      (min (i * per) ((keys.map (List.take FENCE_MAX)).length - 1)) []) = evenCut keys per i := by
    intro i
    have hget := List.getD_map keys [] (n := min (i * per) (keys.length - 1)) (List.take FENCE_MAX)
    rw [List.take_nil] at hget
    rw [List.length_map, hget, fenceLo, List.take_take, Nat.min_self]
    rfl
  -- nothing lies below the first key's cut
  have hfirst : ∀ i, 0 < keysBelow (keys.map (List.take FENCE_MAX)) (evenCut keys per i) →
      evenCut keys per 0 ≠ evenCut keys per i := by
    intro i hpos heq
    have hshort : (evenCut keys per i).length ≤ FENCE_MAX := List.length_take_le _ _
    rw [keysBelow_eq hsorted hshort, List.length_pos_iff_exists_mem] at hpos
    obtain ⟨k, hk⟩ := hpos
    obtain ⟨hk, hlt⟩ := List.mem_filter.mp hk
    rw [← heq, decide_eq_true_eq, evenCut, Nat.zero_mul, Nat.zero_min] at hlt
    cases keys with
    | nil => exact absurd hk List.not_mem_nil
    | cons x xs =>
        have hle : x ≤ k := by
          rcases List.mem_cons.mp hk with rfl | hk
          · exact le_refl _
          · exact ((List.pairwise_cons.mp hsorted).1 k hk).le
        exact absurd (hlt.trans_le (take_le _ x)) (not_lt_of_ge hle)
  have hfold : ∀ m, ∃ bounds, (List.range' 1 m).foldl (fun bounds i =>
      let b := fenceLo ((keys.map (List.take FENCE_MAX)).getD
        (min (i * per) ((keys.map (List.take FENCE_MAX)).length - 1)) [])
      if bounds.getLast? = some b then bounds else bounds ++ [b]) [] = bounds ∧
      bounds.getLast? = (if m = 0 then none else some (evenCut keys per m)) ∧
      bounds.countP (fun b => 0 < keysBelow (keys.map (List.take FENCE_MAX)) b) ≤ evenCuts keys per m := by
    intro m
    induction m with
    | zero => exact ⟨[], rfl, rfl, le_refl _⟩
    | succ m ih =>
        obtain ⟨bounds, hbounds, hlast, hcount⟩ := ih
        rw [List.range'_1_concat, List.foldl_append, hbounds]
        simp only [List.foldl_cons, List.foldl_nil, hcut, Nat.add_comm 1 m, Nat.add_eq_zero_iff,
          one_ne_zero, and_false, if_false]
        have hmore : evenCuts keys per (m + 1) = evenCuts keys per m +
            if evenCut keys per m ≠ evenCut keys per (m + 1) then 1 else 0 := by
          rw [evenCuts, List.range_succ, List.countP_append, List.countP_singleton]
          simp only [decide_eq_true_eq]
          rfl
        rw [hmore]
        by_cases hsame : bounds.getLast? = some (evenCut keys per (m + 1))
        · exact ⟨_, if_pos hsame, hsame, hcount.trans (Nat.le_add_right _ _)⟩
        · refine ⟨_, if_neg hsame, List.getLast?_concat, ?_⟩
          rw [List.countP_append, List.countP_singleton]
          refine Nat.add_le_add hcount ?_
          split_ifs with hsep hne
          · exact le_refl _
          · -- the first bound of all has nothing below it where its cut is the first key's
            rw [not_not] at hne
            rw [hlast] at hsame
            split_ifs at hsame with hzero
            · rw [hzero] at hne hsep
              exact absurd hne (hfirst _ (of_decide_eq_true hsep))
            · exact absurd (congrArg some hne) hsame
          · exact Nat.zero_le _
          · exact le_refl _
  obtain ⟨bounds, hbounds, -, hcount⟩ := hfold (n - 1)
  rw [evenBounds, hbounds]
  exact hcount

/-- A fence closed makes no more pieces than its keys' cuts. -/
lemma length_closeFence_le (hsorted : keys.Pairwise (· < ·))
    (hheld : s.held = keys.map (List.take FENCE_MAX)) :
    (s.closeFence f rest).slices.length ≤ s.slices.length + fenceSlices s.maxKeys keys := by
  rw [Slicer.closeFence]
  split_ifs with hnil
  · rw [List.length_append, List.length_singleton, fenceSlices]
    omega
  · have hlen : s.held.length = keys.length := by rw [hheld, List.length_map]
    simp only [List.length_append, List.length_map, hlen]
    rw [hheld, fenceSlices]
    exact Nat.add_le_add_left ((length_cutByBounds_le _ _ _ _ _).trans
      (Nat.add_le_add_right (countP_evenBounds_le hsorted _ _) 1)) _

lemma closeFence_next : (s.closeFence f rest).held = [] ∧
    (s.closeFence f rest).maxKeys = s.maxKeys ∧ (s.closeFence f rest).fences = some rest := by
  rw [Slicer.closeFence]
  split_ifs <;> exact ⟨rfl, rfl, rfl⟩

/-- The keys below a fence's end, walked: it holds those from its start on. -/
lemma push_below (hf : s.fences = some (f :: rest)) (hbelow : ∀ k ∈ keys, belowHi f k = true) :
    (keys.foldl Slicer.push s).fences = some (f :: rest) ∧
      (keys.foldl Slicer.push s).held = s.held ++ (keys.filter (fun k => f.1 ≤ k)).map
      (List.take FENCE_MAX) ∧
      (keys.foldl Slicer.push s).slices = s.slices ∧ (keys.foldl Slicer.push s).maxKeys
      = s.maxKeys := by
  induction keys generalizing s with
  | nil => exact ⟨hf, (List.append_nil _).symm, rfl, rfl⟩
  | cons k keys ih =>
      obtain ⟨hk, hbelow⟩ := List.forall_mem_cons.mp hbelow
      have hhi : ¬ f.2.any (fun h => h ≤ k) = true := by simpa [belowHi] using hk
      have hpush : s.push k = { Slicer.pushIn k (f :: rest) s with
          total := (Slicer.pushIn k (f :: rest) s).total + 1 } := by
        rw [Slicer.push, hf]
      rw [Slicer.pushIn, if_neg hhi] at hpush
      rw [List.foldl_cons, hpush]
      by_cases hlo : f.1 ≤ k
      · have hin : ¬ (f.1 ≠ [] ∧ k < f.1) := fun h => absurd h.2 (not_lt_of_ge hlo)
        have hkeep : (k :: keys).filter (fun k => decide (f.1 ≤ k)) = k :: keys.filter (fun k => decide (f.1 ≤ k)) :=
          List.filter_cons_of_pos (decide_eq_true hlo)
        have hheld := @ih { s with start := if s.held = [] then s.total else s.start
                                   held := s.held ++ [k.take FENCE_MAX], total := s.total + 1 } hf hbelow
        rw [if_neg hin, hkeep, List.map_cons]
        simpa only [List.append_assoc, List.singleton_append] using hheld
      · have hout : f.1 ≠ [] ∧ k < f.1 := ⟨fun h => hlo (h ▸ nil_le k), not_le.mp hlo⟩
        have hdrop : (k :: keys).filter (fun k => decide (f.1 ≤ k)) = keys.filter (fun k => decide (f.1 ≤ k)) :=
          List.filter_cons_of_neg (by simpa using hlo)
        rw [if_pos hout, hdrop]
        exact @ih { s with total := s.total + 1 } hf hbelow

lemma push_none (hf : s.fences = some []) :
    (keys.foldl Slicer.push s).fences = some [] ∧ (keys.foldl Slicer.push s).slices = s.slices := by
  induction keys generalizing s with
  | nil => exact ⟨hf, rfl⟩
  | cons k keys ih =>
      have hpush : s.push k = { s with total := s.total + 1 } := by
        simp only [Slicer.push, hf, Slicer.pushIn]
      rw [List.foldl_cons, hpush]
      exact @ih { s with total := s.total + 1 } hf

/-- **The fences walked and closed** make no more pieces than their keys' cuts. -/
lemma closeAll_le {fs : List Fence} (hf : s.fences = some fs) (hheld : s.held = [])
    (hsorted : keys.Pairwise (· < ·)) :
    ∃ left, (keys.foldl Slicer.push s).fences = some left ∧
      (Slicer.closeAll left (keys.foldl Slicer.push s)).slices.length
        ≤ s.slices.length + ((heldIn fs keys).map (fenceSlices s.maxKeys)).sum := by
  induction fs generalizing s keys with
  | nil =>
      obtain ⟨hnone, hslices⟩ := @push_none keys s hf
      exact ⟨[], hnone, (congrArg List.length hslices).le.trans (Nat.le_add_right _ _)⟩
  | cons f fs ih =>
      obtain ⟨hfences, hkept, hslices, hmax⟩ := push_below hf
        (List.all_eq_true.mp List.all_takeWhile : ∀ k ∈ keys.takeWhile (belowHi f), belowHi f k = true)
      have hsplit : keys.takeWhile (belowHi f) ++ keys.dropWhile (belowHi f) = keys :=
        List.takeWhile_append_dropWhile
      set s₁ := (keys.takeWhile (belowHi f)).foldl Slicer.push s with hs₁
      rw [hheld, List.nil_append] at hkept
      obtain ⟨hnil, hmax', hnext⟩ := @closeFence_next f fs s₁
      have hmine : ((keys.takeWhile (belowHi f)).filter (fun k => f.1 ≤ k)).Pairwise (· < ·) :=
        hsorted.sublist (List.filter_sublist.trans (List.takeWhile_prefix _).sublist)
      have hclosed := @length_closeFence_le _ f fs s₁ hmine hkept
      obtain ⟨left, hleft, hlen⟩ := ih hnext hnil (hsorted.sublist (List.dropWhile_suffix (belowHi f)).sublist)
      rw [hmax', hmax] at hlen
      rw [hslices, hmax] at hclosed
      have hwalk : keys.foldl Slicer.push s = (keys.dropWhile (belowHi f)).foldl Slicer.push s₁ := by
        rw [hs₁, ← List.foldl_append, hsplit]
      rw [hwalk, heldIn, List.map_cons, List.sum_cons]
      cases hrest : keys.dropWhile (belowHi f) with
      | nil =>
          rw [hrest, List.foldl_nil] at hleft hlen
          rw [hnext] at hleft
          cases hleft
          exact ⟨f :: fs, hfences, by rw [List.foldl_nil, Slicer.closeAll]; omega⟩
      | cons k ks =>
          have hpast : belowHi f k = false := by
            have hnot := List.head?_dropWhile_not (belowHi f) keys
            rw [hrest] at hnot
            simpa using hnot
          rw [belowHi, Bool.not_eq_false', Option.any_eq_true] at hpast
          obtain ⟨h, hh, hle⟩ := hpast
          rw [hrest, List.foldl_cons] at hleft hlen
          rw [List.foldl_cons, Slicer.push_past hfences hh (of_decide_eq_true hle)]
          exact ⟨left, hleft, by omega⟩

/-- **A merge makes no more pieces** than its fences' keys' cuts. -/
lemma sliceCount_le (fences : List Fence) (parts maxKeys : ℕ) (hsorted : keys.Pairwise (· < ·)) :
    sliceCount (some fences) parts maxKeys keys ≤
    ((heldIn fences keys).map (fenceSlices maxKeys)).sum := by
  obtain ⟨left, hleft, hlen⟩ :=
    @closeAll_le keys (Slicer.new (some fences) parts maxKeys) fences rfl rfl hsorted
  rw [sliceCount, Slicer.finish]
  split_ifs
  · exact Nat.zero_le _
  · rw [hleft]
    exact hlen.trans (Nat.zero_add _).le

/-- And with no fences, than its parts. -/
lemma sliceCount_none_le (parts maxKeys : ℕ) (hsorted : keys.Pairwise (· < ·)) :
    sliceCount none parts maxKeys keys ≤ max parts 1 := by
  have hkeep : ∀ ks : List Bytes, (ks.foldl Slicer.push (Slicer.new none parts maxKeys)).fences
      = none ∧ (ks.foldl Slicer.push (Slicer.new none parts maxKeys)).slices = [] ∧
      (ks.foldl Slicer.push (Slicer.new none parts maxKeys)).parts = parts ∧
      (ks.foldl Slicer.push (Slicer.new none parts maxKeys)).held
      = ks.map (List.take FENCE_MAX) := by
    intro ks
    induction ks using List.reverseRecOn with
    | nil => exact ⟨rfl, rfl, rfl, rfl⟩
    | append_singleton ks k ih =>
        obtain ⟨hf, hsl, hp, hh⟩ := ih
        rw [List.foldl_append, List.foldl_cons, List.foldl_nil, List.map_append]
        simp only [Slicer.push, hf]
        exact ⟨trivial, hsl, hp, by rw [hh]; rfl⟩
  obtain ⟨hfences, hslices, hparts, hheld⟩ := hkeep keys
  rw [sliceCount, Slicer.finish]
  split_ifs
  · exact Nat.zero_le _
  · rw [hfences, hparts]
    simp only [Option.map_some, Option.getD_some, hslices, List.nil_append, hheld]
    set n := min (max parts 1) (keys.map (List.take FENCE_MAX)).length with hn
    have hcut := length_cutByBounds_le (keys.map (List.take FENCE_MAX))
      (keys.map (List.take FENCE_MAX)).length [] none (evenBounds (keys.map (List.take FENCE_MAX)) n
        (divCeil (keys.map (List.take FENCE_MAX)).length n))
    have heven := countP_evenBounds_le hsorted n (divCeil (keys.map (List.take FENCE_MAX)).length n)
    have hranks : evenCuts keys (divCeil (keys.map (List.take FENCE_MAX)).length n)
      (n - 1) ≤ n - 1 :=
      List.countP_le_length.trans List.length_range.le
    omega

end Slices

/-! ## The counter and the jobs -/

/-- What names a segment's ordered index and form file. -/
structure Ident where
  id : ℕ
  endSeq : ℕ
  deriving DecidableEq, Repr

inductive JobKind where
  | sealing
  | direct
  | compact
  | tier
  deriving DecidableEq, Repr

/-- A job in flight: the block of ids it was given, the segments it writes and those it reads.  A
direct run is one from its first commit on, with nothing to write until it closes. -/
structure IdJob where
  kind : JobKind
  first : ℕ
  size : ℕ
  outs : List Ident
  ins : List Ident
  deriving DecidableEq, Repr

/-- The ids of a merge's temporary files, `compact-<id>.tmp`. -/
def IdJob.temps (j : IdJob) : List ℕ := if j.kind = .compact then j.outs.map Ident.id else []

/-- The ids a job is given, and no other. -/
def IdJob.Kept (j : IdJob) : Prop := ∀ o ∈ j.outs, j.first ≤ o.id ∧ o.id < j.first + j.size

/-- The segments a store has live, the jobs at work, the next id and the sequence covered. -/
structure Ids where
  next : ℕ
  live : List Ident
  flight : List IdJob
  covered : ℕ
  deriving DecidableEq, Repr

/-- A partition merge as `start_compact` finds it: the fences of its range where there are any, its
inputs' bytes, the partition size, how many keys of the inputs' mean size that holds, and its
inputs. -/
structure CompactAsk where
  fences : Option (List Fence)
  bytes : ℕ
  partitionBytes : ℕ
  perPartition : ℕ
  inputs : List Input
  ins : List Ident

namespace CompactAsk

def parts (a : CompactAsk) : ℕ :=
  match a.fences with
  | some fs => fs.length
  | none => max (divCeil a.bytes a.partitionBytes) 1

def maxKeys (a : CompactAsk) : ℕ := max a.perPartition 1000

/-- The ids reserved. -/
def reserved (a : CompactAsk) : ℕ := max (a.parts * 4) 8

/-- The pieces `compact_run` writes, an empty one included. -/
def pieces (a : CompactAsk) : ℕ := sliceCount a.fences a.parts a.maxKeys (allKeys a.inputs)

/-- What its keys fill, fence by fence. -/
def filled (a : CompactAsk) : ℕ :=
  match a.fences with
  | some fs => ((heldIn fs (allKeys a.inputs)).map (fenceSlices a.maxKeys)).sum
  | none => a.parts

end CompactAsk

/-- What takes ids, and what becomes of it.  A seal writes a piece for each of the partitions'
ranges that holds a key of its table; `land` and `fail` name a job by its place. -/
inductive IdOp where
  | sealTable (fences : ℕ) (holds : ℕ → Bool) (endSeq : ℕ)
  | openDirect
  | closeDirect (i endSeq : ℕ)
  | compact (a : CompactAsk)
  | tier (ins : List Ident)
  | land (i : ℕ)
  | fail (i : ℕ)

namespace Ids

/-- `alloc_segs`, and the job it is for. -/
def begin (s : Ids) (kind : JobKind) (size : ℕ) (outs : ℕ → List Ident) (ins : List Ident) : Ids :=
  { s with next := s.next + size, flight := s.flight ++ [⟨kind, s.next, size, outs s.next, ins⟩] }

def step (s : Ids) : IdOp → Ids
  | .sealTable fences holds endSeq =>
      s.begin .sealing (max fences 1)
        (fun first => ((List.range (max fences 1)).filter holds).map (fun ri => ⟨first + ri, endSeq⟩)) []
  | .openDirect => s.begin .direct 1 (fun _ => []) []
  | .closeDirect i endSeq =>
      { s with flight := s.flight.modify i (fun j =>
          if j.kind = .direct then ⟨.direct, j.first, j.size, [⟨j.first, endSeq⟩], j.ins⟩ else j) }
  | .compact a =>
      s.begin .compact a.reserved
        (fun first => (List.range a.pieces).map (fun pi => ⟨first + pi, s.covered⟩)) a.ins
  | .tier ins =>
      s.begin .tier 1 (fun first => [⟨first, (ins.map Ident.endSeq).max?.getD s.covered⟩]) ins
  | .land i =>
      match s.flight[i]? with
      | none => s
      | some j =>
          { s with live := s.live.filter (fun o => o ∉ j.ins) ++ j.outs, flight := s.flight.eraseIdx i
                   covered := (j.outs.map Ident.endSeq).foldl max s.covered }
  | .fail i => { s with flight := s.flight.eraseIdx i }

/-- **No identity twice**: among the live segments and the outputs of the work in flight, nor a
temporary name of a merge, and no job outside its block. -/
def Unique (s : Ids) : Prop :=
  (s.live ++ s.flight.flatMap IdJob.outs).Nodup ∧ (s.flight.flatMap IdJob.temps).Nodup ∧
    ∀ j ∈ s.flight, j.Kept

instance (s : Ids) : Decidable s.Unique :=
  inferInstanceAs
    (Decidable (_ ∧ _ ∧ ∀ j ∈ s.flight, ∀ o ∈ j.outs, j.first ≤ o.id ∧ o.id < j.first + j.size))

end Ids

/-- The block of a merge is enough for what its keys fill. -/
def IdOp.Meets : IdOp → Prop
  | .compact a => a.filled ≤ a.reserved
  | _ => True

/-! ## The invariant -/

/-- A job within its block: no id of it twice, and a direct run's block is its one id. -/
structure IdJob.Ok (next : ℕ) (j : IdJob) : Prop where
  kept : j.Kept
  nodup : (j.outs.map Ident.id).Nodup
  given : j.first + j.size ≤ next
  direct : j.kind = .direct → j.size = 1

/-- Two blocks with no id in common. -/
def IdJob.Apart (a b : IdJob) : Prop := a.first + a.size ≤ b.first ∨ b.first + b.size ≤ a.first

/-- **Every id comes from the counter once**: the live segments' and the jobs' blocks are below it,
and none lies in a block of another's. -/
structure Ids.Inv (s : Ids) : Prop where
  live : s.live.Nodup
  below : ∀ o ∈ s.live, o.id < s.next
  jobs : ∀ j ∈ s.flight, j.Ok s.next
  outside : ∀ j ∈ s.flight, ∀ o ∈ s.live, o.id < j.first ∨ j.first + j.size ≤ o.id
  apart : s.flight.Pairwise IdJob.Apart

section Invariant

variable {s : Ids}

lemma IdJob.Apart.symm {a b : IdJob} (h : a.Apart b) : b.Apart a := Or.symm h

lemma IdJob.Ok.mono {j : IdJob} {n m : ℕ} (h : j.Ok n) (hle : n ≤ m) : j.Ok m :=
  ⟨h.kept, h.nodup, h.given.trans hle, h.direct⟩

/-- A job given its block. -/
lemma inv_begin (h : s.Inv) {kind : JobKind} {size : ℕ} {outs : ℕ → List Ident} (ins : List Ident)
    (hkept : ∀ o ∈ outs s.next, s.next ≤ o.id ∧ o.id < s.next + size)
    (hnodup : ((outs s.next).map Ident.id).Nodup) (hdirect : kind = .direct → size = 1) :
    (s.begin kind size outs ins).Inv where
  live := h.live
  below := fun o ho => (h.below o ho).trans_le (Nat.le_add_right _ _)
  jobs := by
    intro j hj
    rw [Ids.begin, List.mem_append, List.mem_singleton] at hj
    rcases hj with hj | rfl
    · exact (h.jobs j hj).mono (Nat.le_add_right _ _)
    · exact ⟨hkept, hnodup, le_refl _, hdirect⟩
  outside := by
    intro j hj o ho
    rw [Ids.begin, List.mem_append, List.mem_singleton] at hj
    rcases hj with hj | rfl
    · exact h.outside j hj o ho
    · exact Or.inl (h.below o ho)
  apart := by
    rw [Ids.begin, List.pairwise_append]
    refine ⟨h.apart, List.pairwise_singleton _ _, fun a ha b hb => ?_⟩
    rw [List.mem_singleton] at hb
    rw [hb]
    exact Or.inl (h.jobs a ha).given

/-- The numbers of a block, some of them taken. -/
lemma nodup_ids (first endSeq : ℕ) {l : List ℕ} (h : l.Nodup) :
    ((l.map (fun i => (⟨first + i, endSeq⟩ : Ident))).map Ident.id).Nodup := by
  rw [List.map_map]
  exact h.map fun a b hab => Nat.add_left_cancel hab

/-- A job gone from the flight. -/
lemma inv_erase (h : s.Inv) (i : ℕ) : (s.step (.fail i)).Inv where
  live := h.live
  below := h.below
  jobs := fun j hj => h.jobs j (List.mem_of_mem_eraseIdx hj)
  outside := fun j hj => h.outside j (List.mem_of_mem_eraseIdx hj)
  apart := h.apart.sublist (List.eraseIdx_sublist _ _)

/-- A job landed: what it wrote was in its own block, so in no other's. -/
lemma inv_land (h : s.Inv) (i : ℕ) : (s.step (.land i)).Inv := by
  rw [Ids.step]
  cases hj : s.flight[i]? with
  | none => exact h
  | some j =>
      obtain ⟨hi, rfl⟩ := List.getElem?_eq_some_iff.mp hj
      have hmem : s.flight[i] ∈ s.flight := List.getElem_mem hi
      have hok := h.jobs _ hmem
      have hothers : ∀ b ∈ s.flight.eraseIdx i, IdJob.Apart s.flight[i] b := by
        have hpw := ((List.getElem_cons_eraseIdx_perm hi).pairwise_iff IdJob.Apart.symm).mpr h.apart
        exact (List.pairwise_cons.mp hpw).1
      have hrest := inv_erase h i
      exact
        { live := by
            refine List.nodup_append'.mpr ⟨h.live.filter _, hok.nodup.of_map _, fun o ho ho' => ?_⟩
            have hout := h.outside _ hmem o (List.mem_of_mem_filter ho)
            have hin := hok.kept o ho'
            omega
          below := by
            intro o ho
            rcases List.mem_append.mp ho with ho | ho
            · exact h.below o (List.mem_of_mem_filter ho)
            · exact (hok.kept o ho).2.trans_le hok.given
          jobs := hrest.jobs
          outside := by
            intro b hb o ho
            rcases List.mem_append.mp ho with ho | ho
            · exact hrest.outside b hb o (List.mem_of_mem_filter ho)
            · have hin := hok.kept o ho
              rcases hothers b hb with hle | hle
              · exact Or.inl (by omega)
              · exact Or.inr (by omega)
          apart := hrest.apart }

/-- A direct run closed writes the id it was given. -/
lemma inv_closeDirect (h : s.Inv) (i endSeq : ℕ) : (s.step (.closeDirect i endSeq)).Inv := by
  set close : IdJob → IdJob := fun j =>
    if j.kind = .direct then ⟨.direct, j.first, j.size, [⟨j.first, endSeq⟩], j.ins⟩
      else j with hclose
  have hfirst : ∀ j, (close j).first = j.first := by
    intro j
    rw [hclose]
    dsimp only
    split_ifs <;> rfl
  have hsize : ∀ j, (close j).size = j.size := by
    intro j
    rw [hclose]
    dsimp only
    split_ifs <;> rfl
  have hstep : s.step (.closeDirect i endSeq) = { s with flight := s.flight.modify i close } := rfl
  have hmem : ∀ j ∈ s.flight.modify i close, j ∈ s.flight ∨ ∃ j' ∈ s.flight, j = close j' := by
    intro j hj
    obtain ⟨n, hn, rfl⟩ := List.mem_iff_getElem.mp hj
    rw [List.getElem_modify]
    split_ifs
    · exact Or.inr ⟨_, List.getElem_mem _, rfl⟩
    · exact Or.inl (List.getElem_mem _)
  rw [hstep]
  exact
    { live := h.live
      below := h.below
      jobs := by
        intro j hj
        rcases hmem j hj with hj | ⟨j', hj', rfl⟩
        · exact h.jobs j hj
        · have hok := h.jobs j' hj'
          rw [hclose]
          dsimp only
          split_ifs with hkind
          · have hone := hok.direct hkind
            refine ⟨fun o ho => ?_, List.nodup_singleton _, hok.given, fun _ => hone⟩
            rw [List.mem_singleton] at ho
            rw [ho]
            dsimp only
            omega
          · exact hok
      outside := by
        intro j hj o ho
        rcases hmem j hj with hj | ⟨j', hj', rfl⟩
        · exact h.outside j hj o ho
        · rw [hfirst, hsize]
          exact h.outside j' hj' o ho
      apart := by
        rw [List.pairwise_iff_getElem]
        intro a b ha hb hab
        rw [List.length_modify] at ha hb
        have hap := List.pairwise_iff_getElem.mp h.apart a b ha hb hab
        rw [List.getElem_modify, List.getElem_modify]
        split_ifs <;> simpa only [IdJob.Apart, hfirst, hsize] using hap }

/-- The pieces of a merge whose block is enough stay in it. -/
lemma pieces_le_reserved {a : CompactAsk} (h : a.filled ≤ a.reserved) : a.pieces ≤ a.reserved := by
  refine le_trans ?_ h
  rw [CompactAsk.pieces, CompactAsk.filled]
  cases hf : a.fences with
  | some fs => exact sliceCount_le fs _ _ (pairwise_allKeys _)
  | none =>
      have hparts : 1 ≤ a.parts := by
        rw [CompactAsk.parts, hf]
        exact Nat.le_max_right _ _
      refine (sliceCount_none_le _ _ (pairwise_allKeys _)).trans ?_
      rw [max_eq_left hparts]

/-- **One step keeps the ids apart.** -/
lemma inv_step (h : s.Inv) {op : IdOp} (hmeets : op.Meets) : (s.step op).Inv := by
  cases op with
  | sealTable fences holds endSeq =>
      rw [Ids.step]
      refine inv_begin h [] ?_ ?_ ?_
      · intro o ho
        obtain ⟨ri, hri, rfl⟩ := List.mem_map.mp ho
        have hlt := List.mem_range.mp (List.mem_of_mem_filter hri)
        dsimp only
        omega
      · exact nodup_ids _ _ (List.nodup_range.filter _)
      · simp
  | openDirect =>
      rw [Ids.step]
      refine inv_begin h [] ?_ ?_ ?_ <;> simp
  | closeDirect i endSeq => exact inv_closeDirect h i endSeq
  | compact a =>
      rw [Ids.step]
      refine inv_begin h a.ins ?_ ?_ ?_
      · intro o ho
        obtain ⟨pi, hpi, rfl⟩ := List.mem_map.mp ho
        have hlt := (List.mem_range.mp hpi).trans_le (pieces_le_reserved hmeets)
        dsimp only
        omega
      · exact nodup_ids _ _ List.nodup_range
      · simp
  | tier ins =>
      rw [Ids.step]
      refine inv_begin h ins ?_ ?_ ?_ <;> simp
  | land i => exact inv_land h i
  | fail i => exact inv_erase h i

/-- **A run keeps them apart.** -/
lemma inv_run {ops : List IdOp} (h : s.Inv) (hmeets : ∀ op ∈ ops, op.Meets) :
    (ops.foldl Ids.step s).Inv := by
  induction ops generalizing s with
  | nil => exact h
  | cons op ops ih =>
      rw [List.forall_mem_cons] at hmeets
      exact ih (inv_step h hmeets.1) hmeets.2

lemma Ids.Inv.unique (h : s.Inv) : s.Unique := by
  have hdisjoint : ∀ a b : IdJob, a ∈ s.flight → b ∈ s.flight → a.Apart b →
      ∀ o ∈ a.outs, ∀ o' ∈ b.outs, o.id ≠ o'.id := by
    intro a b ha hb hab o ho o' ho'
    have hin := (h.jobs a ha).kept o ho
    have hin' := (h.jobs b hb).kept o' ho'
    rcases hab with hle | hle <;> omega
  refine ⟨List.nodup_append'.mpr ⟨h.live, ?_, ?_⟩, ?_, fun j hj => (h.jobs j hj).kept⟩
  · refine List.nodup_flatMap.mpr ⟨fun j hj => (h.jobs j hj).nodup.of_map _, ?_⟩
    refine h.apart.imp_of_mem fun ha hb hab o ho ho' => ?_
    exact hdisjoint _ _ ha hb hab o ho o ho' rfl
  · intro o ho ho'
    obtain ⟨j, hj, hin⟩ := List.mem_flatMap.mp ho'
    have hkept := (h.jobs j hj).kept o hin
    have hout := h.outside j hj o ho
    omega
  · refine List.nodup_flatMap.mpr ⟨fun j hj => ?_, ?_⟩
    · rw [IdJob.temps]
      split_ifs
      · exact (h.jobs j hj).nodup
      · exact List.nodup_nil
    · refine h.apart.imp_of_mem fun {a b} ha hb hab n hn hn' => ?_
      simp only [IdJob.temps] at hn hn'
      split_ifs at hn hn' with hka hkb <;> try simp at hn hn'
      obtain ⟨o, ho, rfl⟩ := hn
      obtain ⟨o', ho', heq⟩ := hn'
      exact hdisjoint a b ha hb hab o ho o' ho' heq.symm

end Invariant

/-- The ids an open finds: the segments its manifest names, and the counter past them all. -/
def Ids.start (live : List Ident) (covered : ℕ) : Ids :=
  { next := ((live.map (fun o => o.id + 1)).max?).getD 0, live := live, flight := [], covered := covered }

lemma inv_start {live : List Ident} (covered : ℕ) (h : live.Nodup) :
    (Ids.start live covered).Inv where
  live := h
  below := by
    intro o ho
    have hin : o.id + 1 ∈ live.map (fun o => o.id + 1) := List.mem_map_of_mem ho
    cases hmax : (live.map (fun o => o.id + 1)).max? with
    | none =>
        rw [List.max?_eq_none_iff.mp hmax] at hin
        exact absurd hin List.not_mem_nil
    | some m =>
        have hle := (List.max?_eq_some_iff.mp hmax).2 _ hin
        rw [Ids.start, hmax]
        exact hle
  jobs := by simp [Ids.start]
  outside := by simp [Ids.start]
  apart := List.Pairwise.nil

/-- **No two segments share an identity.**  From any store an open finds, whatever seals, direct
runs, merges and piece merges are started, landed and failed in whatever order, where every merge
was given a block that is enough for the cuts that separate its keys, fence by fence, no identity is
had twice among the live segments and the outputs in flight, nor a temporary name, and no job leaves
its block. -/
theorem ids_unique {live : List Ident} (covered : ℕ) {ops : List IdOp} (hlive : live.Nodup)
    (hmeets : ∀ op ∈ ops, op.Meets) : (ops.foldl Ids.step (Ids.start live covered)).Unique :=
  (inv_run (inv_start covered hlive) hmeets).unique

/-! ## A merge that leaves its block -/

section Shared

/-- The keys of a wide seal, two bytes each. -/
def wideKey (i : ℕ) : Bytes := [UInt8.ofNat (i / 256), UInt8.ofNat (i % 256)]

def wideKeys : List Bytes := (List.range 8001).map wideKey

lemma length_wideKeys : wideKeys.length = 8001 := by
  rw [wideKeys, List.length_map, List.length_range]

lemma wideKey_lt {i j : ℕ} (hij : i < j) (hj : j < 8001) : wideKey i < wideKey j := by
  have hbyte : ∀ {a b : ℕ}, a < b → b < 256 → UInt8.ofNat a < UInt8.ofNat b := by
    intro a b hab hb
    rw [UInt8.lt_iff_toNat_lt, UInt8.toNat_ofNat', UInt8.toNat_ofNat']
    omega
  rw [wideKey, wideKey, cons_lt_cons, cons_lt_cons]
  rcases Nat.lt_or_ge (i / 256) (j / 256) with hdiv | hdiv
  · exact Or.inl (hbyte hdiv (by omega))
  · have heq : i / 256 = j / 256 := by omega
    refine Or.inr ⟨by rw [heq], Or.inl (hbyte (by omega) (by omega))⟩

lemma pairwise_wideKeys : wideKeys.Pairwise (· < ·) := by
  rw [wideKeys, List.pairwise_map]
  refine List.pairwise_lt_range.imp_of_mem fun {i j} _ hj hij => ?_
  exact wideKey_lt hij (List.mem_range.mp hj)

lemma getD_wideKeys {i : ℕ} (h : i < 8001) : wideKeys.getD i [] = wideKey i := by
  have hlt : i < wideKeys.length := by rw [length_wideKeys]; exact h
  rw [List.getD_eq_getElem _ _ hlt]
  simp [wideKeys]

lemma keysBelow_wideKey {j : ℕ} (h : j < 8001) : keysBelow wideKeys (wideKey j) = j := by
  rw [keysBelow]
  refine partitionPoint_eq (Nat.zero_le _) (by rw [length_wideKeys]; omega) fun i _ hi => ?_
  rw [length_wideKeys] at hi
  rw [getD_wideKeys hi, decide_eq_true_iff]
  constructor
  · intro hlt
    by_contra hge
    rcases (Nat.lt_or_eq_of_le (not_lt.mp hge)) with hji | rfl
    · exact lt_asymm hlt (wideKey_lt hji hi)
    · exact lt_irrefl _ hlt
  · exact fun hij => wideKey_lt hij h

/-- Short keys, all under one unbounded range, are held as they come. -/
lemma foldl_push_unbounded (parts maxKeys : ℕ) {keys : List Bytes}
    (h : ∀ k ∈ keys, k.length ≤ FENCE_MAX) :
    keys.foldl Slicer.push (Slicer.new (some [([], none)]) parts maxKeys)
      = { Slicer.new (some [([], none)]) parts maxKeys with held := keys, total := keys.length } :=
      by
  induction keys using List.reverseRecOn with
  | nil => rfl
  | append_singleton keys k ih =>
      have hk : k.take FENCE_MAX = k := List.take_of_length_le (h k (by simp))
      rw [List.foldl_append, ih fun k' hk' => h k' (List.mem_append_left _ hk')]
      simp only [List.foldl_cons, List.foldl_nil, Slicer.push, Slicer.new, Slicer.pushIn,
        Option.any_none, Bool.false_eq_true, if_false, ne_eq, not_true_eq_false, false_and, hk,
        List.length_append, List.length_singleton]
      have hstart : (if keys = [] then keys.length else 0) = 0 := by
        split_ifs with hnil
        · rw [hnil, List.length_nil]
        · rfl
      rw [hstart]

/-- And they make the slices of one cut. -/
lemma sliceCount_unbounded (parts maxKeys : ℕ) {keys : List Bytes} (hne : keys ≠ [])
    (h : ∀ k ∈ keys, k.length ≤ FENCE_MAX) : sliceCount (some [([], none)]) parts maxKeys keys
      = (cutByBounds keys 0 keys.length [] none (evenBounds keys (max (divCeil keys.length (max maxKeys 1)) 1)
          (divCeil keys.length (max (divCeil keys.length (max maxKeys 1)) 1)))).1.length := by
  have hlen : keys.length ≠ 0 := fun h0 => hne (List.length_eq_zero_iff.mp h0)
  rw [sliceCount, foldl_push_unbounded parts maxKeys h, Slicer.finish]
  simp only [Slicer.new, Slicer.closeAll, Slicer.closeFence, hne, if_false, hlen, List.nil_append,
    Option.map_some, Option.getD_some, List.length_map]

lemma evenBounds_wideKeys :
    evenBounds wideKeys 9 889 = [889, 1778, 2667, 3556, 4445, 5334, 6223, 7112].map wideKey := by
  have hbound : ∀ i < 9, fenceLo (wideKeys.getD (min (i * 889) (wideKeys.length - 1)) [])
    = wideKey (i * 889) := by
    intro i hi
    rw [length_wideKeys, min_eq_left (by omega), getD_wideKeys (by omega)]
    rfl
  have hfold : evenBounds wideKeys 9 889 = (List.range' 1 8).foldl (fun bounds i =>
      if bounds.getLast? = some (wideKey (i * 889)) then bounds else bounds ++ [wideKey (i * 889)]) [] := by
    refine List.foldl_ext _ _ _ fun bounds i hi => ?_
    rw [hbound i (by simp at hi; omega)]
  rw [hfold]
  decide

lemma cut_wideKeys : (cutByBounds wideKeys 0 8001 [] none
    ([889, 1778, 2667, 3556, 4445, 5334, 6223, 7112].map wideKey)).1.length = 9 := by
  have hstep : ∀ (c : Cut) (j : ℕ), j < 8001 → Cut.step wideKeys 0 8001 c (wideKey j) =
      if c.pos < j then ⟨c.slices ++ [(c.pos, j)], c.given ++ [(c.slo, some (wideKey j))], j, wideKey j⟩
      else c := by
    intro c j hj
    rw [Cut.step, keysBelow_wideKey hj, min_eq_right (by omega), Nat.zero_max]
  rw [cutByBounds, List.foldl_map]
  simp [hstep]

lemma sliceCount_wideKeys : sliceCount (some [([], none)]) 1 1000 wideKeys = 9 := by
  have hshort : ∀ k ∈ wideKeys, k.length ≤ FENCE_MAX := by
    intro k hk
    obtain ⟨i, -, rfl⟩ := List.mem_map.mp hk
    exact (by decide : 2 ≤ FENCE_MAX)
  have hne : wideKeys ≠ [] := List.ne_nil_of_length_pos (by rw [length_wideKeys]; omega)
  have hn : max (divCeil 8001 (max 1000 1)) 1 = 9 := by decide
  have hper : divCeil 8001 9 = 889 := by decide
  rw [sliceCount_unbounded 1 1000 hne hshort, length_wideKeys, hn, hper, evenBounds_wideKeys]
  exact cut_wideKeys

/-- The inputs of the two merges: a piece of one key, and one of a wide seal over it. -/
def narrowPiece : Input := ⟨[⟨wideKey 0, [[0]], false⟩], none⟩

def widePiece : Input := ⟨wideKeys.map (fun k => ⟨k, [[0]], false⟩), none⟩

lemma allKeys_wide : allKeys [narrowPiece, widePiece] = wideKeys := by
  refine (pairwise_allKeys _).eq_of_mem_iff pairwise_wideKeys fun k => ?_
  have hwide : widePiece.keys = wideKeys := by
    rw [Input.keys, widePiece, List.map_map]
    exact List.map_id _
  have hnarrow : narrowPiece.keys = [wideKey 0] := rfl
  have hzero : wideKey 0 ∈ wideKeys := List.mem_map_of_mem (List.mem_range.mpr (by decide))
  rw [mem_allKeys, List.map_cons, List.map_singleton, hwide, hnarrow]
  constructor
  · rintro ⟨l, hl, hk⟩
    rcases List.mem_pair.mp hl with hl | hl
    · rw [hl] at hk
      rw [List.mem_singleton.mp hk]
      exact hzero
    · rwa [hl] at hk
  · exact fun hk => ⟨wideKeys, List.mem_pair.mpr (Or.inr rfl), hk⟩

lemma allKeys_narrow : allKeys [narrowPiece] = [wideKey 0] := by
  refine (pairwise_allKeys _).eq_of_mem_iff (List.pairwise_singleton _ _) fun k => ?_
  rw [mem_allKeys]
  simp [narrowPiece, Input.keys]

/-- The first partitioning, of the one key. -/
def narrowMerge : CompactAsk := ⟨none, 4096, 1048576, 256, [narrowPiece], [⟨0, 1⟩]⟩

/-- The merge of the wide seal, a kilobyte a key, into the partition it made. -/
def wideMerge : CompactAsk :=
  ⟨some [([], none)], 8400000, 1048576, 998, [narrowPiece, widePiece], [⟨1, 1⟩, ⟨9, 8002⟩]⟩

lemma pieces_narrowMerge : narrowMerge.pieces = 1 := by
  rw [CompactAsk.pieces, narrowMerge, allKeys_narrow]
  rfl

lemma pieces_wideMerge : wideMerge.pieces = 9 := by
  rw [CompactAsk.pieces, wideMerge, allKeys_wide]
  exact sliceCount_wideKeys

/-- A merge of the first key's piece into a partition over everything, with a direct run behind it.
-/
theorem ids_unique_merge : ([.sealTable 1 (fun _ => true) 2, .land 0,
    .compact ⟨some [([], none)], 4096, 1048576, 256, [narrowPiece], [⟨0, 1⟩, ⟨1, 2⟩]⟩, .openDirect,
    .closeDirect 1 2].foldl Ids.step (Ids.start [⟨0, 1⟩] 1)).Unique := by
  refine ids_unique 1 (List.nodup_singleton _) ?_
  simp only [List.forall_mem_cons, IdOp.Meets, CompactAsk.filled, allKeys_narrow, true_and]
  refine ⟨?_, fun op hop => absurd hop List.not_mem_nil⟩
  decide

/-- **A merge outside its block.**  A store's first key is sealed and partitioned; a seal of 8001
keys lands over it, and the merge of both, given eight ids from ten on, makes nine pieces.  The
direct run opened behind it is given the ninth's id, and closes at the sequence the merge ends at:
two segments would be `18` and end at `8002`. -/
theorem ids_shared : ¬ ([.sealTable 0 (fun _ => true) 1, .land 0, .compact narrowMerge, .land 0,
    .sealTable 1 (fun _ => true) 8002, .land 0, .compact wideMerge, .openDirect,
      .closeDirect 1 8002].foldl Ids.step (Ids.start [] 0)).Unique := by
  have hnarrow : narrowMerge.reserved = 8 := by decide
  have hwide : wideMerge.reserved = 8 := by decide
  have hend : ([.sealTable 0 (fun _ => true) 1, .land 0, .compact narrowMerge, .land 0,
      .sealTable 1 (fun _ => true) 8002, .land 0, .compact wideMerge, .openDirect,
        .closeDirect 1 8002].foldl Ids.step (Ids.start [] 0)) = ⟨19, [⟨1, 1⟩, ⟨9, 8002⟩],
          [⟨.compact, 10, 8, (List.range 9).map (fun i => ⟨10 + i, 8002⟩), [⟨1, 1⟩, ⟨9, 8002⟩]⟩,
            ⟨.direct, 18, 1, [⟨18, 8002⟩], []⟩], 8002⟩ := by
    simp only [List.foldl_cons, List.foldl_nil, Ids.step, Ids.begin, hnarrow, hwide,
      pieces_narrowMerge, pieces_wideMerge]
    rfl
  rw [hend]
  decide

end Shared

end Supdb

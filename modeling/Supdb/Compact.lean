import Supdb.Lib.Ranges
import Supdb.MergeFences

/-!
# A partition merge

A partition merge walks its inputs twice.  The first walk gives the **slicer** every distinct key,
and the slicer cuts them, fence by fence, at keys shortened to a fence's length; the second gives
the **emitter** what each key comes to, and the emitter writes one output per slice.  What the
slicer comes to is a list of *shares*: a range and the keys in it.

* `cutByBounds_eq` – keys cut at bounds are shares that cut their range: a bound that cuts nothing
  off makes none.
* `shares` – the shares of all fences; `finish_push` – **they are what the slicer's passes come
  to**.
* `emit_shares` – the emitter over several pieces is one piece after another.
* `compactRun_eq` – **a merge writes its shares**, whichever walk it takes.
* `compactRun_preserves` – the outputs cut the fences given, hold every live key once and inside,
  without a tombstone, and stand for the inputs under any newer sources.
-/

namespace Supdb

open StorageLib

/-! ## Shares -/

/-- A range, and the keys a merge puts in it. -/
structure Share where
  fence : Fence
  keys : List Bytes
  deriving DecidableEq, Repr

/-- The ranks of lists of keys laid behind one another, from `a` on. -/
def ranksFrom : ℕ → List Share → List (ℕ × ℕ)
  | _, [] => []
  | a, s :: ss => (a, a + s.keys.length) :: ranksFrom (a + s.keys.length) ss

/-- Shares of the keys of a range: they cut it, each holds its keys, and only what holds no key at
all has none. -/
structure Shared (f : Fence) (keys : List Bytes) (ss : List Share) : Prop where
  spans : Spans f.1 f.2 (ss.map Share.fence)
  wide : ∀ s ∈ ss, Wide s.fence
  flat : ss.flatMap Share.keys = keys
  inside : ∀ s ∈ ss, ∀ k ∈ s.keys, s.fence.Holds k

section Ranks

variable {ss ss' : List Share} {a : ℕ}

lemma ranksFrom_append : ranksFrom a (ss ++ ss')
    = ranksFrom a ss ++ ranksFrom (a + (ss.flatMap Share.keys).length) ss' := by
  induction ss generalizing a with
  | nil => rfl
  | cons s ss ih =>
      rw [List.cons_append, ranksFrom, ranksFrom, ih, List.flatMap_cons, List.length_append, Nat.add_assoc]
      rfl

lemma map_ranksFrom (start : ℕ) : (ranksFrom a ss).map (fun r => (start + r.1, start + r.2))
    = ranksFrom (start + a) ss := by
  induction ss generalizing a with
  | nil => rfl
  | cons s ss ih => rw [ranksFrom, List.map_cons, ih, ranksFrom, Nat.add_assoc]

end Ranks

/-! ## The cut at bounds -/

/-- What is cut so far: shares up to a rank, and everything behind at or above the last bound that
cut. -/
structure CutSoFar (keys : List Bytes) (lo : Bytes) (c : Cut) (ss : List Share) : Prop where
  slices : c.slices = ranksFrom 0 ss
  given : c.given = ss.map Share.fence
  pos : c.pos ≤ keys.length
  flat : ss.flatMap Share.keys = keys.take c.pos
  inside : ∀ s ∈ ss, s.keys ≠ [] ∧ ∀ k ∈ s.keys, s.fence.Holds k
  low : ∀ k ∈ keys.drop c.pos, c.slo ≤ k
  spans : if ss = [] then c.slo = lo else Spans lo (some c.slo) (ss.map Share.fence)

section CutByBounds

variable {keys : List Bytes} {lo : Bytes} {hi : Option Bytes} {bounds : List Bytes} {c : Cut}
    {ss : List Share}

/-- Keys shortened to a fence's length are cut where the keys are. -/
lemma keysBelow_eq (hsorted : keys.Pairwise (· < ·)) {b : Bytes} (hb : b.length ≤ FENCE_MAX) :
    keysBelow (keys.map (List.take FENCE_MAX)) b
    = (keys.filter (fun k => decide (k < b))).length := by
  have hdown : ∀ x y : Bytes, x < y → decide (y < b) = true → decide (x < b) = true := by
    intro x y hxy hy
    simp only [decide_eq_true_eq] at hy ⊢
    exact hxy.trans hy
  have hsplit := filter_append_filter_not hsorted hdown
  set below := keys.filter (fun k => decide (k < b)) with hbelow
  set above := keys.filter (fun k => !decide (k < b)) with habove
  rw [keysBelow, List.length_map]
  refine partitionPoint_eq (Nat.zero_le _) (List.length_filter_le _ _) (fun i _ hi => ?_)
  have hget : (keys.map (List.take FENCE_MAX)).getD i [] = keys[i].take FENCE_MAX := by
    rw [List.getD_eq_getElem _ _ (by simpa using hi), List.getElem_map]
  rw [hget, decide_eq_true_eq, take_lt_iff hb]
  have hi' : i < (below ++ above).length := by rwa [hsplit]
  have hkey : keys[i] = (below ++ above)[i] := by simp only [hsplit]
  constructor
  · intro hlt
    by_contra hge
    have hmem : keys[i] ∈ above := by
      rw [hkey, List.getElem_append_right (not_lt.mp hge)]
      exact List.getElem_mem _
    rw [habove, List.mem_filter] at hmem
    simp [hlt] at hmem
  · intro hlt
    have hmem : keys[i] ∈ below := by
      rw [hkey, List.getElem_append_left hlt]
      exact List.getElem_mem _
    rw [hbelow, List.mem_filter] at hmem
    simpa using hmem.2

lemma of_mem_take_filter (hsorted : keys.Pairwise (· < ·)) (b : Bytes) :
    (∀ k ∈ keys.take (keys.filter (fun k => decide (k < b))).length, k < b) ∧
      ∀ k ∈ keys.drop (keys.filter (fun k => decide (k < b))).length, b ≤ k := by
  have hdown : ∀ x y : Bytes, x < y → decide (y < b) = true → decide (x < b) = true := by
    intro x y hxy hy
    simp only [decide_eq_true_eq] at hy ⊢
    exact hxy.trans hy
  have hsplit := filter_append_filter_not hsorted hdown
  have hbelow : ∀ k ∈ keys.filter (fun k => decide (k < b)), k < b :=
    fun k hk => by simpa using (List.mem_filter.mp hk).2
  have habove : ∀ k ∈ keys.filter (fun k => !decide (k < b)), b ≤ k :=
    fun k hk => by simpa using (List.mem_filter.mp hk).2
  generalize keys.filter (fun k => decide (k < b)) = below at hsplit hbelow ⊢
  generalize keys.filter (fun k => !decide (k < b)) = above at hsplit habove
  subst hsplit
  rw [List.take_left' rfl, List.drop_left' rfl]
  exact ⟨hbelow, habove⟩

/-- **A bound tried.** -/
lemma cutStep_ok (hsorted : keys.Pairwise (· < ·)) (hc : CutSoFar keys lo c ss) {b : Bytes}
    (hb : b.length ≤ FENCE_MAX) :
    ∃ ss', CutSoFar keys lo (c.step (keys.map (List.take FENCE_MAX)) 0 keys.length b) ss' := by
  have hlen := List.length_filter_le (fun k => decide (k < b)) keys
  obtain ⟨hbelow, habove⟩ := of_mem_take_filter hsorted b
  rw [Cut.step, keysBelow_eq hsorted hb]
  set p := (keys.filter (fun k => decide (k < b))).length with hp
  have hstop : max 0 (min keys.length p) = p := by omega
  simp only [hstop]
  by_cases hcut : c.pos < p
  · rw [if_pos hcut]
    have hmem : ∀ k ∈ (keys.take p).drop c.pos, c.slo ≤ k ∧ k < b := by
      intro k hk
      refine ⟨hc.low k ?_, hbelow k (List.mem_of_mem_drop hk)⟩
      rw [List.drop_take] at hk
      exact List.mem_of_mem_take hk
    have hlenNew : ((keys.take p).drop c.pos).length = p - c.pos := by
      rw [List.length_drop, List.length_take]
      omega
    have hlenOld : (ss.flatMap Share.keys).length = c.pos := by
      rw [hc.flat, List.length_take]
      exact Nat.min_eq_left hc.pos
    refine ⟨ss ++ [⟨(c.slo, some b), (keys.take p).drop c.pos⟩], ⟨?_, ?_, hlen, ?_, ?_, habove, ?_⟩⟩
    · rw [hc.slices, ranksFrom_append, hlenOld, Nat.zero_add]
      simp only [ranksFrom, hlenNew]
      rw [show c.pos + (p - c.pos) = p by omega]
    · rw [hc.given, List.map_append]
      rfl
    · rw [List.flatMap_append, hc.flat, List.flatMap_singleton]
      have htake : keys.take c.pos = (keys.take p).take c.pos := by
        rw [List.take_take, Nat.min_eq_left hcut.le]
      rw [htake, List.take_append_drop]
    · intro s hs
      rcases List.mem_append.mp hs with hs | hs
      · exact hc.inside s hs
      · rw [List.mem_singleton.mp hs]
        refine ⟨fun hnil => ?_, fun k hk => ⟨(hmem k hk).1, fun x hx => ?_⟩⟩
        · have h0 : ((keys.take p).drop c.pos).length = 0 := by rw [show (keys.take p).drop c.pos = [] from hnil]; rfl
          omega
        · rw [← Option.some.inj hx]
          exact (hmem k hk).2
    · have hspans := hc.spans
      rw [if_neg (by simp), List.map_append]
      by_cases hnil : ss = []
      · rw [if_pos hnil] at hspans
        rw [hnil, hspans]
        rfl
      · rw [if_neg hnil] at hspans
        exact hspans.append rfl
  · rw [if_neg hcut]
    exact ⟨ss, hc⟩

lemma cutSteps_ok (hsorted : keys.Pairwise (· < ·)) (hb : ∀ b ∈ bounds, b.length ≤ FENCE_MAX)
    (hc : CutSoFar keys lo c ss) :
    ∃ ss', CutSoFar keys lo (bounds.foldl (Cut.step (keys.map (List.take FENCE_MAX)) 0 keys.length) c) ss' := by
  induction bounds generalizing c ss with
  | nil => exact ⟨ss, hc⟩
  | cons b bounds ih =>
      obtain ⟨hb₁, hb₂⟩ := List.forall_mem_cons.mp hb
      obtain ⟨ss', hc'⟩ := cutStep_ok hsorted hc hb₁
      exact ih hb₂ hc'

/-- **Keys cut at bounds.** -/
lemma cutByBounds_eq (hsorted : keys.Pairwise (· < ·)) (hne : keys ≠ [])
    (hin : ∀ k ∈ keys, Fence.Holds (lo, hi) k) (hb : ∀ b ∈ bounds, b.length ≤ FENCE_MAX) :
    ∃ ss, cutByBounds (keys.map (List.take FENCE_MAX)) 0 keys.length lo hi bounds
        = (ranksFrom 0 ss, ss.map Share.fence) ∧ Shared (lo, hi) keys ss ∧ ∀ s ∈ ss, s.keys ≠ [] := by
  have hnew : CutSoFar keys lo ⟨[], [], 0, lo⟩ [] :=
    ⟨rfl, rfl, Nat.zero_le _, rfl, by simp, fun k hk => (hin k (by simpa using hk)).1, rfl⟩
  obtain ⟨ss, hc⟩ := cutSteps_ok hsorted hb hnew
  have hlenOld : (ss.flatMap Share.keys).length
      = (bounds.foldl (Cut.step (keys.map (List.take FENCE_MAX)) 0 keys.length) ⟨[], [], 0, lo⟩).pos := by
    rw [hc.flat, List.length_take]
    exact Nat.min_eq_left hc.pos
  rw [cutByBounds]
  generalize bounds.foldl (Cut.step (keys.map (List.take FENCE_MAX)) 0 keys.length) ⟨[], [], 0, lo⟩
    = c at hc hlenOld
  have hwide : ∀ s ∈ ss, Wide s.fence := by
    intro s hs
    obtain ⟨hne, hin⟩ := hc.inside s hs
    obtain ⟨k, hk⟩ := List.exists_mem_of_ne_nil _ hne
    exact InRange.wide (hin k hk)
  have hspans := hc.spans
  by_cases hpos : c.pos < keys.length
  · -- the keys behind the last bound that cut make a slice of their own
    have hlast : ∀ k ∈ keys.drop c.pos, Fence.Holds (c.slo, hi) k :=
      fun k hk => ⟨hc.low k hk, (hin k (List.mem_of_mem_drop hk)).2⟩
    obtain ⟨k, hk⟩ : ∃ k, k ∈ keys.drop c.pos := List.exists_mem_of_ne_nil _ (by simpa using hpos)
    have hmem : ∀ {P : Share → Prop}, (∀ s ∈ ss, P s) → P ⟨(c.slo, hi), keys.drop c.pos⟩ →
        ∀ s ∈ ss ++ [⟨(c.slo, hi), keys.drop c.pos⟩], P s := by
      intro P hss hnew s hs
      rcases List.mem_append.mp hs with hs | hs
      · exact hss s hs
      · rw [List.mem_singleton.mp hs]
        exact hnew
    refine ⟨ss ++ [⟨(c.slo, hi), keys.drop c.pos⟩], ?_, ⟨?_, ?_, ?_, ?_⟩, ?_⟩
    · rw [if_pos hpos, hc.slices, hc.given, ranksFrom_append, hlenOld, Nat.zero_add, List.map_append]
      simp only [ranksFrom, List.length_drop, List.map_singleton]
      rw [show c.pos + (keys.length - c.pos) = keys.length by omega]
    · rw [List.map_append]
      by_cases hnil : ss = []
      · rw [if_pos hnil] at hspans
        rw [hnil, hspans]
        rfl
      · rw [if_neg hnil] at hspans
        exact hspans.append rfl
    · exact hmem hwide (InRange.wide (hlast k hk))
    · rw [List.flatMap_append, hc.flat, List.flatMap_singleton, List.take_append_drop]
    · exact hmem (fun s hs => (hc.inside s hs).2) hlast
    · exact hmem (fun s hs => (hc.inside s hs).1) (List.ne_nil_of_mem hk)
  · -- nothing lies above the last bound that cut, and its slice closes where the range does
    have hall : keys.take c.pos = keys := List.take_of_length_le (not_lt.mp hpos)
    have hss : ss ≠ [] := by
      rintro rfl
      exact hne (by rw [← hall, ← hc.flat]; rfl)
    obtain ⟨front, last, rfl⟩ : ∃ front last, ss = front ++ [last] :=
      ⟨ss.dropLast, ss.getLast hss, (List.dropLast_append_getLast hss).symm⟩
    rw [if_neg hss, List.map_append] at hspans
    have hin' : ∀ k ∈ last.keys, Fence.Holds (last.fence.1, hi) k := by
      intro k hk
      refine ⟨((hc.inside last (by simp)).2 k hk).1, (hin k ?_).2⟩
      rw [← hall, ← hc.flat, List.flatMap_append, List.flatMap_singleton]
      exact List.mem_append_right _ hk
    obtain ⟨k, hk⟩ := List.exists_mem_of_ne_nil _ (hc.inside last (by simp)).1
    have hmem : ∀ {P : Share → Prop}, (∀ s ∈ front, P s) → P ⟨(last.fence.1, hi), last.keys⟩ →
        ∀ s ∈ front ++ [⟨(last.fence.1, hi), last.keys⟩], P s := by
      intro P hfront hnew s hs
      rcases List.mem_append.mp hs with hs | hs
      · exact hfront s hs
      · rw [List.mem_singleton.mp hs]
        exact hnew
    refine ⟨front ++ [⟨(last.fence.1, hi), last.keys⟩], ?_, ⟨?_, ?_, ?_, ?_⟩, ?_⟩
    · rw [if_neg hpos, hc.slices, hc.given, List.map_append, List.map_singleton,
        List.getLast?_append_of_ne_nil _ (by simp)]
      simp only [List.getLast?_singleton, List.dropLast_concat, ranksFrom_append, List.map_append, List.map_singleton]
      rfl
    · rw [List.map_append]
      exact Spans.close hspans
    · exact hmem (fun s hs => hwide s (List.mem_append_left _ hs)) (InRange.wide (hin' k hk))
    · rw [← hall, ← hc.flat, List.flatMap_append, List.flatMap_append, List.flatMap_singleton, List.flatMap_singleton]
    · exact hmem (fun s hs => (hc.inside s (List.mem_append_left _ hs)).2) hin'
    · exact hmem (fun s hs => (hc.inside s (List.mem_append_left _ hs)).1) (hc.inside last (by simp)).1

lemma evenBounds_short (held : List Bytes) (n per : ℕ) : ∀ b ∈ evenBounds held n per,
    b.length ≤ FENCE_MAX := by
  rw [evenBounds]
  have hfold : ∀ (is : List ℕ) (bounds : List Bytes), (∀ b ∈ bounds, b.length ≤ FENCE_MAX) →
      ∀ b ∈ is.foldl (fun bounds i =>
        let b := fenceLo (held.getD (min (i * per) (held.length - 1)) [])
        if bounds.getLast? = some b then bounds else bounds ++ [b]) bounds, b.length ≤ FENCE_MAX := by
    intro is
    induction is with
    | nil => exact fun bounds h => h
    | cons i is ih =>
        intro bounds h
        refine ih _ (fun b hb => ?_)
        dsimp only at hb
        split_ifs at hb
        · exact h b hb
        · rcases List.mem_append.mp hb with hb | hb
          · exact h b hb
          · rw [List.mem_singleton.mp hb, fenceLo]
            exact (List.length_take_le _ _)
  exact hfold _ [] (by simp)

end CutByBounds

/-! ## The slicer -/

/-- The keys of a range cut at even ranks, `n` slices at most. -/
def cutEven (f : Fence) (keys : List Bytes) (n : ℕ) : List Share :=
  let cut := cutByBounds (keys.map (List.take FENCE_MAX)) 0 keys.length f.1 f.2
    (evenBounds (keys.map (List.take FENCE_MAX)) n (divCeil keys.length n))
  (cut.1.zip cut.2).map (fun p => ⟨p.2, (keys.take p.1.2).drop p.1.1⟩)

/-- The shares of a fence: the fence itself where it has no key. -/
def sharesIn (maxKeys : ℕ) (f : Fence) (keys : List Bytes) : List Share :=
  if keys = [] then [⟨f, []⟩] else cutEven f keys (max (divCeil keys.length (max maxKeys 1)) 1)

/-- The shares of a merge's keys. -/
def shares (fences : Option (List Fence)) (parts maxKeys : ℕ) (keys : List Bytes) : List Share :=
  match fences with
  | some fs => fs.flatMap (fun f => sharesIn maxKeys f (keys.filter (fun k => decide (f.Holds k))))
  | none => cutEven ([], none) keys (min (max parts 1) keys.length)

/-- The fences a merge is asked for: each with room, one behind the other, every key in one. -/
structure FencesFor (fs : List Fence) (keys : List Bytes) : Prop where
  wide : ∀ f ∈ fs, Wide f
  before : fs.Pairwise Fence.Before
  cover : ∀ k ∈ keys, ∃ f ∈ fs, f.Holds k

section Slicer

variable {keys : List Bytes} {f : Fence} {n : ℕ}

/-- Shares laid over keys are found again at their ranks. -/
lemma zip_ranksFrom {ss : List Share} (pre : List Bytes) (h : keys = pre ++ ss.flatMap Share.keys) :
    ((ranksFrom pre.length ss).zip (ss.map Share.fence)).map
    (fun p => (⟨p.2, (keys.take p.1.2).drop p.1.1⟩ : Share)) = ss := by
  induction ss generalizing pre with
  | nil => rfl
  | cons s ss ih =>
      have hsplit : keys = (pre ++ s.keys) ++ ss.flatMap Share.keys := by rw [h, List.flatMap_cons, List.append_assoc]
      have hmine : (keys.take (pre.length + s.keys.length)).drop pre.length = s.keys := by
        rw [hsplit, List.take_left' List.length_append, List.drop_left]
      have ih' := ih _ hsplit
      rw [List.length_append] at ih'
      rw [ranksFrom, List.map_cons, List.zip_cons_cons, List.map_cons, ih', hmine]

/-- **Even cuts.** -/
lemma cutEven_spec (hsorted : keys.Pairwise (· < ·)) (hne : keys ≠ [])
    (hin : ∀ k ∈ keys, f.Holds k) :
    cutByBounds (keys.map (List.take FENCE_MAX)) 0 keys.length f.1 f.2
        (evenBounds (keys.map (List.take FENCE_MAX)) n (divCeil keys.length n))
      = (ranksFrom 0 (cutEven f keys n), (cutEven f keys n).map Share.fence) ∧
      Shared f keys (cutEven f keys n) ∧ ∀ s ∈ cutEven f keys n, s.keys ≠ [] := by
  have hholds : ∀ k ∈ keys, Fence.Holds (f.1, f.2) k := hin
  obtain ⟨ss, hcut, hshared, hnone⟩ := cutByBounds_eq hsorted hne hholds
    (evenBounds_short (keys.map (List.take FENCE_MAX)) n (divCeil keys.length n))
  have hsame : cutEven f keys n = ss := by
    rw [cutEven, hcut]
    exact zip_ranksFrom [] (by rw [List.nil_append, hshared.flat])
  rw [hsame]
  exact ⟨hcut, hshared, hnone⟩

lemma sharesIn_spec {maxKeys : ℕ} (hsorted : keys.Pairwise (· < ·)) (hwide : Wide f)
    (hin : ∀ k ∈ keys, f.Holds k) : Shared f keys (sharesIn maxKeys f keys) := by
  rw [sharesIn]
  by_cases hnil : keys = []
  · rw [if_pos hnil, hnil]
    exact ⟨rfl, by simpa using hwide, rfl, by simp⟩
  · rw [if_neg hnil]
    exact (cutEven_spec hsorted hnil hin).2.1

namespace Slicer

variable {s : Slicer} {rest : List Fence} {k : Bytes}

/-- A key of the fence walked. -/
lemma push_in (hf : s.fences = some (f :: rest)) (hk : f.Holds k) :
    s.push k = { s with start := if s.held = [] then s.total else s.start
                        held := s.held ++ [k.take FENCE_MAX], total := s.total + 1 } := by
  have hbelow : ¬ f.2.any (fun h => decide (h ≤ k)) = true := by
    rw [Option.any_eq_true]
    rintro ⟨h, hh, hle⟩
    exact absurd (hk.2 h hh) (not_lt_of_ge (by simpa using hle))
  have habove : ¬ (f.1 ≠ [] ∧ k < f.1) := fun h => absurd h.2 (not_lt_of_ge hk.1)
  have hpush :
    s.push k = { pushIn k (f :: rest) s with total := (pushIn k (f :: rest) s).total + 1 } := by
    rw [push, hf]
  rw [hpush, pushIn, if_neg hbelow, if_neg habove]

/-- A key behind the fence walked. -/
lemma push_past (hf : s.fences = some (f :: rest)) {h : Bytes} (hh : h ∈ f.2) (hle : h ≤ k) :
    s.push k = (s.closeFence f rest).push k := by
  have hpast : f.2.any (fun h => decide (h ≤ k)) = true :=
    (Option.any_eq_true _ _).mpr ⟨h, hh, by simpa using hle⟩
  have hrest : (s.closeFence f rest).fences = some rest := by
    rw [closeFence]
    split_ifs <;> rfl
  rw [push, hf, push, hrest]
  simp only [pushIn]
  rw [if_pos hpast]

/-- Keys of the fence walked, the first one there already. -/
lemma push_more (hf : s.fences = some (f :: rest)) (hheld : s.held ≠ [])
    (hin : ∀ k ∈ keys, f.Holds k) : keys.foldl push s
      = { s with held := s.held ++ keys.map (List.take FENCE_MAX), total := s.total + keys.length } := by
  induction keys generalizing s with
  | nil => simp
  | cons k keys ih =>
      obtain ⟨hk, hin⟩ := List.forall_mem_cons.mp hin
      rw [List.foldl_cons, push_in hf hk, if_neg hheld]
      refine (ih (s := { s with held := s.held ++ [k.take FENCE_MAX], total := s.total + 1 }) hf (by simp) hin).trans ?_
      simp only [List.map_cons, List.append_assoc, List.singleton_append, List.length_cons]
      rw [show s.total + 1 + keys.length = s.total + (keys.length + 1) by omega]

/-- The keys of a fence. -/
lemma push_fence (hf : s.fences = some (f :: rest)) (hheld : s.held = []) (hne : keys ≠ [])
    (hin : ∀ k ∈ keys, f.Holds k) : keys.foldl push s
      = { s with start := s.total, held := keys.map (List.take FENCE_MAX), total := s.total + keys.length } := by
  cases keys with
  | nil => exact absurd rfl hne
  | cons k keys =>
      obtain ⟨hk, hin⟩ := List.forall_mem_cons.mp hin
      rw [List.foldl_cons, push_in hf hk, if_pos hheld]
      refine (push_more (s := { s with start := s.total, held := s.held ++ [k.take FENCE_MAX], total := s.total + 1 })
        hf (by simp) hin).trans ?_
      simp only [hheld, List.nil_append, List.map_cons, List.singleton_append, List.length_cons]
      rw [show s.total + 1 + keys.length = s.total + (keys.length + 1) by omega]

/-- **A fence walked and closed** is its shares. -/
lemma closeFence_push (hf : s.fences = some (f :: rest)) (hheld : s.held = [])
    (hsorted : keys.Pairwise (· < ·)) (hin : ∀ k ∈ keys, f.Holds k) :
    (keys.foldl push s).fences = some (f :: rest) ∧
    (keys.foldl push s).total = s.total + keys.length ∧
    ∃ start, (keys.foldl push s).closeFence f rest
      = { s with fences := some rest, start := start, held := [], total := s.total + keys.length
                 slices := s.slices ++ ranksFrom s.total (sharesIn s.maxKeys f keys)
                 given := s.given ++ (sharesIn s.maxKeys f keys).map Share.fence } := by
  by_cases hnil : keys = []
  · subst hnil
    refine ⟨hf, rfl, s.start, ?_⟩
    rw [List.foldl_nil, closeFence, if_pos hheld]
    rfl
  · rw [push_fence hf hheld hnil hin]
    refine ⟨hf, rfl, s.total, ?_⟩
    have hlen : (keys.map (List.take FENCE_MAX)).length = keys.length := List.length_map _
    have hmap : ¬ keys.map (List.take FENCE_MAX) = [] := by simpa using hnil
    obtain ⟨hcut, -, -⟩ :=
      cutEven_spec (n := max (divCeil keys.length (max s.maxKeys 1)) 1) hsorted hnil hin
    rw [closeFence, if_neg hmap, sharesIn, if_neg hnil]
    simp only [hlen, hcut, map_ranksFrom, Nat.add_zero]

/-- **The fences walked and closed** are their shares, whatever is left open when the keys end. -/
lemma closeAll_push {gs : List (Fence × List Bytes)} (hf : s.fences = some (gs.map Prod.fst))
    (hheld : s.held = []) (hbefore : (gs.map Prod.fst).Pairwise Fence.Before)
    (hsorted : ∀ g ∈ gs, g.2.Pairwise (· < ·)) (hin : ∀ g ∈ gs, ∀ k ∈ g.2, g.1.Holds k) :
    ∃ fs, ((gs.flatMap Prod.snd).foldl push s).fences = some fs ∧
      ((gs.flatMap Prod.snd).foldl push s).total = s.total + (gs.flatMap Prod.snd).length ∧
      ∃ t, closeAll fs ((gs.flatMap Prod.snd).foldl push s) = t ∧ t.total = s.total + (gs.flatMap Prod.snd).length ∧
        t.slices = s.slices ++ ranksFrom s.total (gs.flatMap (fun g => sharesIn s.maxKeys g.1 g.2)) ∧
        t.given = s.given ++ (gs.flatMap (fun g => sharesIn s.maxKeys g.1 g.2)).map Share.fence := by
  induction gs generalizing s with
  | nil => exact ⟨[], hf, rfl, s, rfl, rfl, by simp [ranksFrom], by simp⟩
  | cons g gs ih =>
      obtain ⟨f, keys⟩ := g
      obtain ⟨hfirst, hbefore⟩ := List.pairwise_cons.mp hbefore
      obtain ⟨hs, hsorted⟩ := List.forall_mem_cons.mp hsorted
      obtain ⟨hk, hin⟩ := List.forall_mem_cons.mp hin
      obtain ⟨hwalked, htotal, start, hclose⟩ := closeFence_push hf hheld hs hk
      have hwide : ∀ {k}, k ∈ keys → Wide f := fun h => InRange.wide (hk _ h)
      have hmine : (sharesIn s.maxKeys f keys).flatMap Share.keys = keys := by
        by_cases hnil : keys = []
        · subst hnil
          rfl
        · obtain ⟨k, hmem⟩ := List.exists_mem_of_ne_nil _ hnil
          exact (sharesIn_spec hs (hwide hmem) hk).flat
      set s₁ := keys.foldl push s with hs₁
      obtain ⟨fs, hfs, htot, t, hall, ht, hslices, hgiven⟩ :=
        ih (s := s₁.closeFence f (gs.map Prod.fst)) (by rw [hclose]) (by rw [hclose]) hbefore hsorted hin
      have htotal₂ : (s₁.closeFence f (gs.map Prod.fst)).total = s.total + keys.length := by rw [hclose]
      have hslices₂ : (s₁.closeFence f (gs.map Prod.fst)).slices
          = s.slices ++ ranksFrom s.total (sharesIn s.maxKeys f keys) := by rw [hclose]
      have hgiven₂ : (s₁.closeFence f (gs.map Prod.fst)).given
          = s.given ++ (sharesIn s.maxKeys f keys).map Share.fence := by rw [hclose]
      have hmax₂ : (s₁.closeFence f (gs.map Prod.fst)).maxKeys = s.maxKeys := by rw [hclose]
      rw [htotal₂] at htot ht hslices
      rw [hslices₂, hmax₂] at hslices
      rw [hgiven₂, hmax₂] at hgiven
      -- the fence is closed by the next key behind it, or at the end
      have hlazy : ∃ fs', ((gs.flatMap Prod.snd).foldl push s₁).fences = some fs' ∧
          ((gs.flatMap Prod.snd).foldl push s₁).total
            = ((gs.flatMap Prod.snd).foldl push (s₁.closeFence f (gs.map Prod.fst))).total ∧
          closeAll fs' ((gs.flatMap Prod.snd).foldl push s₁)
            = closeAll fs ((gs.flatMap Prod.snd).foldl push (s₁.closeFence f (gs.map Prod.fst))) := by
        cases hkeys : gs.flatMap Prod.snd with
        | nil =>
            rw [hkeys] at hfs
            rw [List.foldl_nil] at hfs ⊢
            refine ⟨f :: gs.map Prod.fst, hwalked, ?_, ?_⟩
            · rw [List.foldl_nil, hclose, htotal]
            · rw [hclose] at hfs ⊢
              simp only [Option.some.injEq] at hfs
              rw [closeAll, hclose, List.foldl_nil, hfs]
        | cons k ks =>
            obtain ⟨g, hg, hkg⟩ := List.mem_flatMap.mp (hkeys ▸ List.mem_cons_self : k ∈ gs.flatMap Prod.snd)
            obtain ⟨h, hh, hle⟩ := hfirst g.1 (List.mem_map_of_mem hg)
            rw [List.foldl_cons, push_past hwalked hh (hle.trans (hin g hg k hkg).1)]
            rw [hkeys] at hfs
            exact ⟨fs, hfs, rfl, rfl⟩
      obtain ⟨fs', hfs', htot', hall'⟩ := hlazy
      rw [List.flatMap_cons, List.foldl_append, ← hs₁, List.length_append, List.flatMap_cons]
      refine ⟨fs', hfs', by rw [htot', htot, Nat.add_assoc], t, by rw [hall', hall], by rw [ht, Nat.add_assoc], ?_, ?_⟩
      · rw [hslices, ranksFrom_append, hmine, List.append_assoc]
      · rw [hgiven, List.map_append, List.append_assoc]

/-- Keys pushed with no fence given are held. -/
lemma push_held (hf : s.fences = none) :
    keys.foldl push s
      = { s with held := s.held ++ keys.map (List.take FENCE_MAX), total := s.total + keys.length } := by
  induction keys generalizing s with
  | nil => simp
  | cons k keys ih =>
      have hpush : s.push k = { s with held := s.held ++ [k.take FENCE_MAX], total := s.total + 1 } := by
        rw [push, hf]
      rw [List.foldl_cons, hpush]
      refine (ih (s := { s with held := s.held ++ [k.take FENCE_MAX], total := s.total + 1 }) hf).trans ?_
      simp only [List.map_cons, List.append_assoc, List.singleton_append, List.length_cons]
      rw [show s.total + 1 + keys.length = s.total + (keys.length + 1) by omega]

end Slicer

/-- Keys are the keys of their fences, one fence behind another. -/
lemma FencesFor.flatMap_filter {fs : List Fence} (h : FencesFor fs keys)
    (hsorted : keys.Pairwise (· < ·)) :
    fs.flatMap (fun f => keys.filter (fun k => decide (f.Holds k))) = keys := by
  refine List.Pairwise.eq_of_mem_iff (r := (· < ·)) ?_ hsorted (fun k => ?_)
  · rw [List.flatMap_def, List.pairwise_flatten]
    refine ⟨?_, ?_⟩
    · intro l hl
      obtain ⟨f, -, rfl⟩ := List.mem_map.mp hl
      exact hsorted.filter _
    · rw [List.pairwise_map]
      refine h.before.imp (fun {f g} hbefore x hx y hy => ?_)
      obtain ⟨b, hb, hle⟩ := hbefore
      have hxf : f.Holds x := by simpa using (List.mem_filter.mp hx).2
      have hyg : g.Holds y := by simpa using (List.mem_filter.mp hy).2
      exact (hxf.2 b hb).trans_le (hle.trans hyg.1)
  · rw [List.mem_flatMap]
    constructor
    · rintro ⟨f, -, hk⟩
      exact List.mem_of_mem_filter hk
    · intro hk
      obtain ⟨f, hf, hfk⟩ := h.cover k hk
      exact ⟨f, hf, List.mem_filter.mpr ⟨hk, by simpa using hfk⟩⟩

/-- **The slicer's passes come to the shares.** -/
lemma finish_push {fences : Option (List Fence)} (parts maxKeys : ℕ)
    (hsorted : keys.Pairwise (· < ·)) (hne : keys ≠ [])
    (hfences : ∀ fs ∈ fences, FencesFor fs keys) :
    (keys.foldl Slicer.push (Slicer.new fences parts maxKeys)).finish
      = some (ranksFrom 0 (shares fences parts maxKeys keys), (shares fences parts maxKeys keys).map Share.fence,
          keys.length) := by
  have hlen : ¬ keys.length = 0 := by simpa using hne
  cases fences with
  | none =>
      rw [Slicer.push_held rfl, Slicer.finish]
      simp only [Slicer.new, List.nil_append, Nat.zero_add, List.length_map, if_neg hlen]
      obtain ⟨hcut, -, -⟩ := cutEven_spec (f := ([], none)) (n := min (max parts 1) keys.length)
        hsorted hne (fun k _ => ⟨nil_le k, fun h hh => absurd hh (by simp)⟩)
      rw [hcut]
      rfl
  | some fs =>
      have hfor := hfences fs rfl
      have hflat := hfor.flatMap_filter hsorted
      set gs := fs.map (fun f => (f, keys.filter (fun k => decide (f.Holds k)))) with hgs
      have hkeys : gs.flatMap Prod.snd = keys := by
        rw [hgs, List.flatMap_map]
        exact hflat
      have hfst : gs.map Prod.fst = fs := by
        rw [hgs, List.map_map]
        exact List.map_id _
      have hnew : (Slicer.new (some fs) parts maxKeys).fences = some (gs.map Prod.fst) := by
        rw [hfst]
        rfl
      obtain ⟨rest, hrest, htotal, t, hall, ht, hslices, hgiven⟩ :=
        Slicer.closeAll_push hnew rfl
          (by rw [hfst]; exact hfor.before)
          (fun g hg => by
            obtain ⟨f, -, rfl⟩ := List.mem_map.mp hg
            exact hsorted.filter _)
          (fun g hg k hk => by
            obtain ⟨f, -, rfl⟩ := List.mem_map.mp hg
            simpa using (List.mem_filter.mp hk).2)
      rw [hkeys] at hrest htotal hall ht
      simp only [Slicer.new, Nat.zero_add, List.nil_append] at htotal ht hslices hgiven
      have hshares : gs.flatMap (fun g => sharesIn maxKeys g.1 g.2) = shares (some fs) parts maxKeys keys := by
        rw [hgs, List.flatMap_map]
        rfl
      rw [hshares] at hslices hgiven
      rw [Slicer.finish,
        if_neg
        (by rw [show (keys.foldl Slicer.push (Slicer.new (some fs) parts maxKeys)).total
        = _ from htotal]; exact hlen)]
      rw [hrest]
      simp only [hall, hslices, hgiven, ht]

end Slicer

/-! ## The outputs -/

/-- What a partition merge writes for a key: its live values, and nothing where there are none. -/
def compactEntry (inputs : List Input) (k : Bytes) : Option Entry :=
  if (merged inputs k).vals.length = 0 then none else some ⟨k, (merged inputs k).vals, false⟩

/-- The entries of a share. -/
def partEntries (inputs : List Input) (s : Share) : List Entry :=
  (s.keys.map (compactEntry inputs)).reduceOption

/-- The name of the `i`-th output. -/
def partName (plan : MergePlan) (i : ℕ) (s : Share) : SegName :=
  ⟨.par, plan.firstId + i, plan.endSeq, s.fence⟩

/-- The outputs of shares, from the `i`-th on. -/
def partsFrom (plan : MergePlan) (i : ℕ) (ss : List Share) : List (SegName × Share) :=
  (ss.zipIdx i).map (fun s => (partName plan s.2 s.1, s.1))

/-- The outputs of a merge: their names and their keys. -/
def compactParts (plan : MergePlan) (inputs : List Input) : List (SegName × Share) :=
  partsFrom plan 0 (shares plan.fences plan.parts plan.maxKeys (allKeys inputs))

/-- The outputs of a merge: their names and what they hold. -/
def compactOuts (plan : MergePlan) (inputs : List Input) : List (SegName × List Entry) :=
  (compactParts plan inputs).map (fun p => (p.1, partEntries inputs p.2))

/-- An output written. -/
def writePart (env : MergeEnv) (inputs : List Input) (p : SegName × Share) : Except String Output :=
  writePiece env p.1 (partEntries inputs p.2)

/-- The emitter's pieces for shares, from a rank and an output on. -/
def partPieces (plan : MergePlan) : ℕ → ℕ → List Share → List Piece
  | _, _, [] => []
  | a, i, s :: ss =>
      ⟨a, a + s.keys.length, partName plan i s⟩ :: partPieces plan (a + s.keys.length) (i + 1) ss

section Emit

variable {inputs : List Input} {env : MergeEnv} {plan : MergePlan}

lemma key_of_compactEntry {k : Bytes} {e : Entry} (h : compactEntry inputs k = some e) :
    e.key = k := by
  rw [compactEntry] at h
  split_ifs at h
  rw [← Option.some.inj h]

/-- A key of the walk is written as the inputs together say, and passed over where they leave no
value. -/
lemma compactKey_eq (hok : ∀ s ∈ inputs, s.Ok) (env : MergeEnv) (em : Emitter) (k : Bytes) :
    compactKey env inputs em k (tiedOf (inputs.map Input.keys) k)
    = em.emit env (compactEntry inputs k) := by
  obtain ⟨start, -, hg, hv⟩ := gather_spec _ (tiedEntry_tiedOf hok k)
  rw [← merged_eq_tied hok] at hg hv
  rw [compactKey, hg, compactEntry]
  simp only [bind, Except.bind, hv]
  split_ifs with h
  · rfl
  · rfl

lemma zip_partPieces (ss : List Share) (a i : ℕ) :
    (((ranksFrom a ss).zip (ss.map Share.fence)).zipIdx i).map (fun p =>
        (⟨p.1.1.1, p.1.1.2, ⟨.par, plan.firstId + p.2, plan.endSeq, p.1.2⟩⟩ : Piece)) = partPieces plan a i ss := by
  induction ss generalizing a i with
  | nil => rfl
  | cons s ss ih =>
      rw [ranksFrom, List.map_cons, List.zip_cons_cons, List.zipIdx_cons, List.map_cons, ih]
      rfl

lemma partsFrom_cons (i : ℕ) (s : Share) (ss : List Share) :
    partsFrom plan i (s :: ss) = (partName plan i s, s) :: partsFrom plan (i + 1) ss := by
  rw [partsFrom, List.zipIdx_cons, List.map_cons]
  rfl

/-- Whether a piece has a rank is whether its share has a key. -/
lemma empty_partPieces (ss : List Share) (a i : ℕ) :
    ((partPieces plan a i ss).filter (fun p => p.stop ≤ p.start)).map Piece.name
      = ((partsFrom plan i ss).filter (fun p => p.2.keys = [])).map Prod.fst := by
  induction ss generalizing a i with
  | nil => rfl
  | cons s ss ih =>
      rw [partPieces, partsFrom_cons]
      by_cases hnil : s.keys = []
      · rw [List.filter_cons_of_pos (by simp [hnil]), List.filter_cons_of_pos (by simp [hnil]),
          List.map_cons, List.map_cons, ih]
      · have hpos : 0 < s.keys.length := List.length_pos_iff.mpr hnil
        rw [List.filter_cons_of_neg (by simp; omega), List.filter_cons_of_neg (by simp [hnil]), ih]

/-- **The emitter over shares** writes one after another those that have a key. -/
lemma emit_shares (ss : List Share) (a i : ℕ) (em : Emitter)
    (hp : em.pieces.drop em.pi = (partPieces plan a i ss).filter (fun p => ¬ p.stop ≤ p.start))
    (hr : em.r = a) (hw : em.w = none) (hin : ∀ s ∈ ss, ∀ k ∈ s.keys, s.fence.Holds k) :
    (ss.flatMap Share.keys).foldlM (fun em k => em.emit env (compactEntry inputs k)) em
      = ((partsFrom plan i ss).filter (fun p => ¬ p.2.keys = [])).mapM (writePart env inputs) >>=
      fun os =>
          .ok { em with r := a + (ss.flatMap Share.keys).length, w := none, out := em.out ++ os
                        pi := em.pi + ((partPieces plan a i ss).filter (fun p => ¬ p.stop ≤ p.start)).length } := by
  induction ss generalizing a i em with
  | nil =>
      subst hr
      cases em
      simp only at hw
      subst hw
      simp [partsFrom, partPieces]
      rfl
  | cons s ss ih =>
      obtain ⟨hs, hin⟩ := List.forall_mem_cons.mp hin
      rw [partPieces] at hp ⊢
      rw [partsFrom_cons, List.flatMap_cons, List.foldlM_append, List.length_append, ← Nat.add_assoc]
      by_cases hnil : s.keys = []
      · rw [List.filter_cons_of_neg (by simp [hnil])] at hp ⊢
        rw [List.filter_cons_of_neg (by simp [hnil])]
        have hlen : s.keys.length = 0 := List.length_eq_zero_iff.mpr hnil
        rw [hlen, Nat.add_zero] at hp ⊢
        rw [hnil, List.foldlM_nil]
        exact ih a (i + 1) em hp hr hw hin
      · have hpos : 0 < s.keys.length := List.length_pos_iff.mpr hnil
        rw [List.filter_cons_of_pos (by simp; omega)] at hp ⊢
        rw [List.filter_cons_of_pos (by simp [hnil]), List.mapM_cons]
        have hget : em.pieces[em.pi]? = some ⟨a, a + s.keys.length, partName plan i s⟩ := by
          rw [← List.head?_drop, hp]
          rfl
        have hrest : em.pieces.drop (em.pi + 1)
            = (partPieces plan (a + s.keys.length) (i + 1) ss).filter (fun p => ¬ p.stop ≤ p.start) := by
          rw [← List.tail_drop, hp]
          rfl
        have hpiece := @Emitter.emit_piece env em _ (.create env.opts)
          (s.keys.map (compactEntry inputs)) (by simpa using hnil) hget (by rw [hr])
          (by rw [hr, List.length_map]) (by rw [Emitter.Opens, if_pos hr]) (fun o ho e he => by
            obtain ⟨k, hk, rfl⟩ := List.mem_map.mp ho
            rw [key_of_compactEntry he]
            exact hs k hk)
        rw [List.foldlM_map] at hpiece
        rw [hpiece, writePart, writePiece, partEntries]
        simp only [bind_assoc]
        refine bind_congr (fun w => ?_)
        refine bind_congr (fun o => ?_)
        have hnext := ih (a + s.keys.length) (i + 1)
          { em with r := a + s.keys.length, w := none, out := em.out ++ [o], pi := em.pi + 1 } hrest rfl rfl hin
        refine hnext.trans ?_
        refine bind_congr (fun os => ?_)
        simp only [List.length_cons, List.append_assoc, List.singleton_append]
        rw [show em.pi + 1 +
          ((partPieces plan (a + s.keys.length) (i + 1) ss).filter
          (fun p => ¬ p.stop ≤ p.start)).length
          =
          em.pi +
          (((partPieces plan (a + s.keys.length) (i + 1) ss).filter
          (fun p => ¬ p.stop ≤ p.start)).length + 1) by omega]
        rfl

/-! ## The run -/

/-- Asking each input for a key finds it where the walk does. -/
lemma foundIn_eq (hok : ∀ s ∈ inputs, s.Ok) (k : Bytes) :
    foundIn inputs k = tiedOf (inputs.map Input.keys) k := by
  have hone : ∀ s ∈ inputs, s.entries.findIdx? (fun e => e.key = k)
      = if k ∈ s.keys then some (rankIn s.keys k) else none := by
    intro s hs
    by_cases hk : k ∈ s.keys
    · have hsorted := (hok s hs).sorted
      have hall : ∀ l ∈ [s.keys], l.Pairwise (· < ·) := List.forall_mem_singleton.mpr hsorted
      have hget : s.keys[rankIn s.keys k]? = some k :=
        getElem?_rankIn hall (List.mem_singleton_self _) hk
      rw [if_pos hk, List.findIdx?_eq_some_iff_getElem]
      rw [Input.keys, List.getElem?_map, Option.map_eq_some_iff] at hget
      obtain ⟨e, he, hek⟩ := hget
      obtain ⟨hlt, hget⟩ := List.getElem?_eq_some_iff.mp he
      refine ⟨hlt, decide_eq_true (hget ▸ hek), fun j hj => ?_⟩
      have hbelow := List.pairwise_iff_getElem.mp (List.pairwise_map.mp hsorted) j _ (hj.trans hlt) hlt hj
      rw [hget, hek] at hbelow
      simpa using hbelow.ne
    · rw [if_neg hk, List.findIdx?_eq_none_iff]
      intro e he
      simpa using fun hek => hk (List.mem_map.mpr ⟨e, he, hek⟩)
  rw [foundIn, tiedOf, List.zipIdx_map, List.filter_map, List.map_map]
  have hall : ∀ x ∈ inputs.zipIdx, x.1 ∈ inputs :=
    fun x hx => List.mem_of_getElem? (List.mem_zipIdx_iff_getElem?.mp hx)
  generalize inputs.zipIdx = xs at hall ⊢
  induction xs with
  | nil => rfl
  | cons x xs ih =>
      obtain ⟨hx, hall⟩ := List.forall_mem_cons.mp hall
      by_cases hk : k ∈ x.1.keys
      · rw [List.filterMap_cons_some (by rw [hone x.1 hx, if_pos hk]; rfl), ih hall,
          List.filter_cons_of_pos (by simpa using hk)]
        rfl
      · rw [List.filterMap_cons_none (by rw [hone x.1 hx, if_neg hk]; rfl), ih hall,
          List.filter_cons_of_neg (by simpa using hk)]

/-- **The walk by the heads.** -/
lemma mergeKeys_eq {σ : Type} (hok : ∀ s ∈ inputs, s.Ok) (heads cached : Bool)
    (f : σ → Bytes → List (ℕ × ℕ) → Except String σ) (s : σ) :
    mergeKeys inputs (inputs.map (openOrd heads)) cached f s
      = (allKeys inputs).foldlM (fun s k => f s k (tiedOf (inputs.map Input.keys) k)) s := by
  have h := kmerge_eq (sorted_keys hok) (headKeyAt_eq hok heads) cached f (pairwise_allKeys inputs)
    (fun _ => mem_allKeys) (length_allKeys_le inputs) s
  rwa [List.length_map] at h

lemma mapM_congr {α β : Type} {f g : α → Except String β} {l : List α} (h : ∀ a ∈ l, f a = g a) :
    l.mapM f = l.mapM g := by
  induction l with
  | nil => rfl
  | cons a l ih =>
      obtain ⟨ha, hl⟩ := List.forall_mem_cons.mp h
      rw [List.mapM_cons, List.mapM_cons, ha, ih hl]

lemma ite_bind {α β : Type} (c : Prop) [Decidable c] (x y : Except String α)
    (f : α → Except String β) : (if c then x >>= f else y >>= f) = (if c then x else y) >>= f := by
  split_ifs <;> rfl

lemma foldlM_ok {α β : Type} (g : β → α → β) (l : List α) (b : β) :
    l.foldlM (fun b a => (Except.ok (g b a) : Except String β)) b = .ok (l.foldl g b) := by
  induction l generalizing b with
  | nil => rfl
  | cons a l ih => exact ih (g b a)

/-- The slicer's pass, either way. -/
lemma slicer_pass (hok : ∀ s ∈ inputs, s.Ok) (plan : MergePlan) (s : Slicer) :
    (if plan.cursors then
        mergeKeys inputs (inputs.map (openOrd plan.heads)) plan.walkCached (fun s k _ => .ok (s.push k)) s
      else .ok ((allKeys inputs).foldl Slicer.push s)) = .ok ((allKeys inputs).foldl Slicer.push s) := by
  cases plan.cursors with
  | true =>
      rw [if_pos rfl, mergeKeys_eq hok]
      exact foldlM_ok Slicer.push _ _
  | false => rfl

/-- The emitter's pass, either way. -/
lemma emitter_pass (hok : ∀ s ∈ inputs, s.Ok) (env : MergeEnv) (plan : MergePlan) (em : Emitter) :
    (if plan.cursors then mergeRanks inputs plan.walkCached (compactKey env inputs) em
      else (allKeys inputs).foldlM (fun em k => compactKey env inputs em k (foundIn inputs k)) em)
      = (allKeys inputs).foldlM (fun em k => em.emit env (compactEntry inputs k)) em := by
  cases plan.cursors with
  | true =>
      rw [if_pos rfl, mergeRanks_eq hok]
      simp only [compactKey_eq hok]
  | false =>
      rw [if_neg (by simp)]
      simp only [foundIn_eq hok, compactKey_eq hok]

lemma shares_flat {fences : Option (List Fence)} {keys : List Bytes} (parts maxKeys : ℕ)
    (hsorted : keys.Pairwise (· < ·)) (hne : keys ≠ [])
    (hfences : ∀ fs ∈ fences, FencesFor fs keys) :
    (shares fences parts maxKeys keys).flatMap Share.keys = keys ∧
      ∀ s ∈ shares fences parts maxKeys keys, Wide s.fence ∧ ∀ k ∈ s.keys, s.fence.Holds k := by
  cases fences with
  | none =>
      obtain ⟨-, hshared, -⟩ := cutEven_spec (f := ([], none)) (n := min (max parts 1) keys.length)
        hsorted hne (fun k _ => ⟨nil_le k, fun h hh => absurd hh (by simp)⟩)
      exact ⟨hshared.flat, fun s hs => ⟨hshared.wide s hs, hshared.inside s hs⟩⟩
  | some fs =>
      have hfor := hfences fs rfl
      have hone : ∀ f ∈ fs, Shared f (keys.filter (fun k => decide (f.Holds k)))
          (sharesIn maxKeys f (keys.filter (fun k => decide (f.Holds k)))) :=
        fun f hf => sharesIn_spec (hsorted.filter _) (hfor.wide f hf)
          (fun k hk => by simpa using (List.mem_filter.mp hk).2)
      constructor
      · rw [shares, List.flatMap_assoc]
        refine Eq.trans ?_ (hfor.flatMap_filter hsorted)
        exact List.flatMap_congr (fun f hf => (hone f hf).flat)
      · intro s hs
        obtain ⟨f, hf, hs⟩ := List.mem_flatMap.mp hs
        exact ⟨(hone f hf).wide s hs, (hone f hf).inside s hs⟩

/-- **A merge writes its shares**, whichever walk it takes: those with no key first, the others in
order. -/
lemma compactRun_eq (hok : ∀ s ∈ inputs, s.Ok) (env : MergeEnv) (plan : MergePlan)
    (hfences : ∀ fs ∈ plan.fences, FencesFor fs (allKeys inputs)) :
    compactRun env plan inputs =
      if allKeys inputs = [] then .ok []
      else
        ((compactParts plan inputs).filter (fun p => p.2.keys = [])).mapM (writePart env inputs) >>= fun empties =>
          ((compactParts plan inputs).filter (fun p => ¬ p.2.keys = [])).mapM (writePart env inputs) >>= fun out =>
            .ok (out ++ empties) := by
  have hsorted := pairwise_allKeys inputs
  have hpass := slicer_pass hok plan (Slicer.new plan.fences plan.parts plan.maxKeys)
  rw [compactRun]
  simp only [ite_bind]
  rw [hpass]
  simp only [emitter_pass hok, bind, Except.bind]
  by_cases hnil : allKeys inputs = []
  · rw [if_pos hnil, hnil]
    rfl
  · rw [if_neg hnil, finish_push plan.parts plan.maxKeys hsorted hnil hfences]
    obtain ⟨hflat, hin⟩ := shares_flat plan.parts plan.maxKeys hsorted hnil hfences
    simp only [zip_partPieces, compactParts]
    generalize shares plan.fences plan.parts plan.maxKeys (allKeys inputs) = ss at hflat hin
    have hempty : ((partPieces plan 0 0 ss).filter (fun p => p.stop ≤ p.start)).mapM (fun p => writeEmpty env p.name)
        = ((partsFrom plan 0 ss).filter (fun p => p.2.keys = [])).mapM (writePart env inputs) := by
      have hmap : ((partPieces plan 0 0 ss).filter (fun p => p.stop ≤ p.start)).mapM (fun p => writeEmpty env p.name)
          = (((partPieces plan 0 0 ss).filter (fun p => p.stop ≤ p.start)).map Piece.name).mapM (writeEmpty env) := by
        rw [List.mapM_map]
        rfl
      rw [hmap, empty_partPieces, List.mapM_map]
      refine mapM_congr (fun p hp => ?_)
      have hnone : p.2.keys = [] := by simpa using (List.mem_filter.mp hp).2
      rw [Function.comp, writePart, partEntries, hnone]
      rfl
    rw [hempty]
    cases ((partsFrom plan 0 ss).filter (fun p => p.2.keys = [])).mapM (writePart env inputs) with
    | error e => rfl
    | ok empties =>
        have hemit := @emit_shares inputs env plan ss 0 0
          ⟨(partPieces plan 0 0 ss).filter (fun p => ¬ p.stop ≤ p.start), 0, 0, none, []⟩ rfl rfl
          rfl (fun s hs => (hin s hs).2)
        rw [hflat] at hemit
        simp only
        rw [hemit]
        cases ((partsFrom plan 0 ss).filter (fun p => ¬ p.2.keys = [])).mapM (writePart env inputs) with
        | error e => rfl
        | ok out =>
            simp only [bind, Except.bind, Emitter.finish, Nat.zero_add, ne_eq, not_true_eq_false,
              or_self, if_false, List.nil_append]

end Emit

/-! ## What the outputs say -/

section Says

variable {inputs : List Input} {plan : MergePlan} {s : Share} {ss : List Share}

lemma mem_partEntries {e : Entry} : e ∈ partEntries inputs s ↔ e.key ∈ s.keys ∧
    compactEntry inputs e.key = some e := by
  rw [partEntries, List.reduceOption_mem_iff, List.mem_map]
  constructor
  · rintro ⟨k, hk, h⟩
    rw [key_of_compactEntry h]
    exact ⟨hk, h⟩
  · rintro ⟨hk, h⟩
    exact ⟨_, hk, h⟩

lemma keys_partEntries : (partEntries inputs s).map Entry.key
    = s.keys.filter (fun k => (compactEntry inputs k).isSome) := by
  rw [partEntries]
  induction s.keys with
  | nil => rfl
  | cons k ks ih =>
      rw [List.map_cons]
      cases h : compactEntry inputs k with
      | none => rw [List.reduceOption_cons_of_none, ih, List.filter_cons_of_neg (by simp [h])]
      | some e =>
          rw [List.reduceOption_cons_of_some, List.map_cons, ih, key_of_compactEntry h,
            List.filter_cons_of_pos (by simp [h])]

/-- An output says of its keys what the inputs leave of them, masking nothing, and nothing of
others. -/
lemma deltaIn_partEntries (hsorted : s.keys.Pairwise (· < ·)) (k : Bytes) :
    deltaIn (partEntries inputs s) k = if k ∈ s.keys then ⟨false, (merged inputs k).vals⟩
    else 1 := by
  by_cases h : k ∈ s.keys ∧ (compactEntry inputs k).isSome
  · obtain ⟨hk, h⟩ := h
    obtain ⟨e, he⟩ := Option.isSome_iff_exists.mp h
    have hek := key_of_compactEntry he
    have hmem : e ∈ partEntries inputs s := mem_partEntries.mpr ⟨by rwa [hek], by rwa [hek]⟩
    obtain ⟨r, hr⟩ := List.mem_iff_getElem?.mp hmem
    have hfind := find?_of_getElem? (by rw [keys_partEntries]; exact hsorted.filter _) hr
    rw [hek] at hfind
    rw [deltaIn, hfind, if_pos hk]
    rw [compactEntry] at he
    split_ifs at he
    rw [← Option.some.inj he]
  · have hnone : (partEntries inputs s).find? (fun e => e.key = k) = none := by
      rw [List.find?_eq_none]
      intro e he hek
      have hek : e.key = k := by simpa using hek
      obtain ⟨hk, he⟩ := mem_partEntries.mp he
      rw [hek] at hk he
      exact h ⟨hk, by rw [he]; rfl⟩
    rw [deltaIn, hnone]
    split_ifs with hk
    · have hsay : ¬ (compactEntry inputs k).isSome := fun hs => h ⟨hk, hs⟩
      rw [compactEntry] at hsay
      split_ifs at hsay with hd
      · rw [List.length_eq_zero_iff.mp hd]
        rfl
      · exact absurd rfl hsay
    · rfl

/-- Of shares that repeat no key, one at most speaks of a key. -/
lemma prod_shares {β : Type} (d : Delta β) (hnodup : (ss.flatMap Share.keys).Nodup) (k : Bytes) :
    (ss.map (fun s => if k ∈ s.keys then d else 1)).prod = if k ∈ ss.flatMap Share.keys then d
    else 1 := by
  induction ss with
  | nil => rfl
  | cons s ss ih =>
      rw [List.flatMap_cons] at hnodup
      obtain ⟨-, hrest, hdis⟩ := List.nodup_append.mp hnodup
      rw [List.map_cons, List.prod_cons, ih hrest, List.flatMap_cons]
      by_cases hk : k ∈ s.keys
      · have hnot : ¬ k ∈ ss.flatMap Share.keys := fun h => hdis k hk k h rfl
        rw [if_pos hk, if_neg hnot, mul_one, if_pos (List.mem_append_left _ hk)]
      · rw [if_neg hk, one_mul]
        simp only [List.mem_append, hk, false_or]

lemma map_partsFrom {γ : Type} (g : Share → γ) (i : ℕ) : (partsFrom plan i ss).map (fun p => g p.2)
    = ss.map g := by
  induction ss generalizing i with
  | nil => rfl
  | cons s ss ih => rw [partsFrom_cons, List.map_cons, List.map_cons, ih]

lemma fence_of_mem_partsFrom {p : SegName × Share} {i : ℕ} (hp : p ∈ partsFrom plan i ss) :
    p.1.fence = p.2.fence ∧ p.2 ∈ ss := by
  rw [partsFrom, List.mem_map] at hp
  obtain ⟨⟨s, j⟩, hs, rfl⟩ := hp
  exact ⟨rfl, List.fst_mem_of_mem_zipIdx hs⟩

/-- **The outputs of a merge together** say of every key what its inputs leave of it. -/
lemma prod_compactParts (hfences : ∀ fs ∈ plan.fences, FencesFor fs (allKeys inputs))
    (hne : allKeys inputs ≠ []) (k : Bytes) :
    ((compactParts plan inputs).map (fun p => deltaIn (partEntries inputs p.2) k)).prod
    = ⟨false, (merged inputs k).vals⟩ := by
  have hsorted := pairwise_allKeys inputs
  obtain ⟨hflat, -⟩ := shares_flat plan.parts plan.maxKeys hsorted hne hfences
  rw [compactParts, map_partsFrom (fun s => deltaIn (partEntries inputs s) k)]
  generalize shares plan.fences plan.parts plan.maxKeys (allKeys inputs) = ss at hflat
  have hone : ∀ s ∈ ss, deltaIn (partEntries inputs s) k
    = if k ∈ s.keys then ⟨false, (merged inputs k).vals⟩ else 1 := by
    intro s hs
    refine deltaIn_partEntries ?_ k
    refine hsorted.sublist ?_
    rw [← hflat, List.flatMap_def]
    exact List.sublist_flatten_of_mem (List.mem_map_of_mem hs)
  rw [List.map_congr_left hone, prod_shares _ (by rw [hflat]; exact hsorted.imp ne_of_lt), hflat]
  split_ifs with hk
  · rfl
  · rw [merged_of_not_mem hk]
    rfl

end Says

/-- How the fences of a merge's outputs cut those it was given, or all the keys. -/
def CutsOf (fences : Option (List Fence)) (outs : List Fence) : Prop :=
  match fences with
  | none => Spans [] none outs
  | some fs => ∃ groups : List (List Fence), outs = groups.flatten ∧ List.Forall₂ (fun f g => Spans f.1 f.2 g) fs groups

lemma cutsOf_shares {fences : Option (List Fence)} {keys : List Bytes} (parts maxKeys : ℕ)
    (hsorted : keys.Pairwise (· < ·)) (hne : keys ≠ [])
    (hfences : ∀ fs ∈ fences, FencesFor fs keys) :
    CutsOf fences ((shares fences parts maxKeys keys).map Share.fence) := by
  cases fences with
  | none =>
      obtain ⟨-, hshared, -⟩ := cutEven_spec (f := ([], none)) (n := min (max parts 1) keys.length)
        hsorted hne (fun k _ => ⟨nil_le k, fun h hh => absurd hh (by simp)⟩)
      exact hshared.spans
  | some fs =>
      have hfor := hfences fs rfl
      refine ⟨fs.map (fun f => (sharesIn maxKeys f (keys.filter (fun k => decide (f.Holds k)))).map
        Share.fence), ?_, ?_⟩
      · rw [shares, List.flatMap_def, List.map_flatten, List.map_map]
        rfl
      · rw [List.forall₂_map_right_iff, List.forall₂_same]
        exact fun f hf => (sharesIn_spec (hsorted.filter _) (hfor.wide f hf)
          (fun k hk => by simpa using (List.mem_filter.mp hk).2)).spans

/-- **A partition merge preserves meaning.**  Over inputs that hold a key and fences that hold all
their keys, or none given, the outputs cut those fences, or all the keys, at shared ends; each holds
increasing keys inside its own, every one with a value and none with a tombstone; under any newer
sources they leave of every key what the inputs left of it; those without a key are written first,
whichever way the walks read their keys; and where each is within the format's limits all are
written, and what each holds is read back of its file. -/
theorem compactRun_preserves (env : MergeEnv) (plan : MergePlan) (inputs : List Input)
    (hok : ∀ s ∈ inputs, s.Ok) (hne : allKeys inputs ≠ [])
    (hfences : ∀ fs ∈ plan.fences, FencesFor fs (allKeys inputs)) :
    CutsOf plan.fences ((compactOuts plan inputs).map (fun o => o.1.fence)) ∧
    (∀ o ∈ compactOuts plan inputs, Wide o.1.fence ∧ (o.2.map Entry.key).Pairwise (· < ·) ∧
      ∀ e ∈ o.2, o.1.fence.Holds e.key ∧ e.values ≠ [] ∧ e.tomb = false) ∧
    (∀ (newer : List (List Entry)) (k : Bytes),
      ((inputs.map Input.entries ++ newer).map (deltaIn · k)).prod.vals
        = (((compactOuts plan inputs).map Prod.snd ++ newer).map (deltaIn · k)).prod.vals) ∧
    ∃ first behind, (first ++ behind).Perm (compactOuts plan inputs) ∧
      (∀ cursors heads walkCached,
        compactRun env { plan with cursors := cursors, heads := heads, walkCached := walkCached }
          inputs = first.mapM (fun o => writePiece env o.1 o.2) >>= fun empties =>
              behind.mapM (fun o => writePiece env o.1 o.2) >>= fun out => .ok (out ++ empties)) ∧
      (env.host.Claims → env.opts.blockSize < 2 ^ 32 →
        (∀ o ∈ compactOuts plan inputs, Writable env.opts o.2) →
        ∃ written : List Output,
          (∀ cursors heads walkCached, compactRun env
            { plan with cursors := cursors, heads := heads, walkCached := walkCached } inputs
              = .ok written) ∧
          List.Forall₂ (fun o w => w.name = o.1 ∧
            PieceHolds env.lz env.opts.checksums w.file w.ord o.2) (behind ++ first) written) := by
  have hsorted := pairwise_allKeys inputs
  obtain ⟨hflat, hin⟩ := shares_flat plan.parts plan.maxKeys hsorted hne hfences
  let pair : SegName × Share → SegName × List Entry := fun p => (p.1, partEntries inputs p.2)
  have hcut : CutsOf plan.fences ((compactOuts plan inputs).map (fun o => o.1.fence)) := by
    have hfence : (compactOuts plan inputs).map (fun o => o.1.fence)
        = (shares plan.fences plan.parts plan.maxKeys (allKeys inputs)).map Share.fence := by
      rw [compactOuts, List.map_map, compactParts, ← map_partsFrom Share.fence]
      exact List.map_congr_left (fun p hp => (fence_of_mem_partsFrom hp).1)
    rw [hfence]
    exact cutsOf_shares plan.parts plan.maxKeys hsorted hne hfences
  have hheld : ∀ o ∈ compactOuts plan inputs, Wide o.1.fence ∧
      (o.2.map Entry.key).Pairwise (· < ·) ∧
      ∀ e ∈ o.2, o.1.fence.Holds e.key ∧ e.values ≠ [] ∧ e.tomb = false := by
    intro o ho
    obtain ⟨p, hp, rfl⟩ := List.mem_map.mp ho
    obtain ⟨hf, hs⟩ := fence_of_mem_partsFrom hp
    obtain ⟨hwide, hinside⟩ := hin p.2 hs
    simp only [hf]
    refine ⟨hwide, ?_, fun e he => ?_⟩
    · rw [keys_partEntries]
      refine (hsorted.sublist ?_).filter _
      conv_rhs => rw [← hflat, List.flatMap_def]
      exact List.sublist_flatten_of_mem (List.mem_map_of_mem hs)
    · obtain ⟨hk, he⟩ := mem_partEntries.mp he
      refine ⟨hinside _ hk, ?_⟩
      rw [compactEntry] at he
      split_ifs at he with hv
      rw [← Option.some.inj he]
      exact ⟨fun h => hv (List.length_eq_zero_iff.mpr h), rfl⟩
  have hrun : ∀ cursors heads walkCached,
      compactRun env { plan with cursors := cursors, heads := heads, walkCached := walkCached }
        inputs = (((compactParts plan inputs).filter (fun p => p.2.keys = [])).map pair).mapM
            (fun o => writePiece env o.1 o.2) >>= fun empties =>
          (((compactParts plan inputs).filter (fun p => ¬ p.2.keys = [])).map pair).mapM
            (fun o => writePiece env o.1 o.2) >>= fun out => .ok (out ++ empties) := by
    intro cursors heads walkCached
    have hrun := compactRun_eq hok env
      { plan with cursors := cursors, heads := heads, walkCached := walkCached } hfences
    rw [if_neg hne] at hrun
    rw [hrun, List.mapM_map, List.mapM_map]
    rfl
  refine ⟨hcut, hheld, fun newer k => ?_, _, _, ?_, hrun, fun hclaims hsize hw => ?_⟩
  · have hinputs : ((inputs.map Input.entries).map (deltaIn · k)).prod = merged inputs k := by
      rw [List.map_map]
      rfl
    have houts : (((compactOuts plan inputs).map Prod.snd).map (deltaIn · k)).prod
        = ⟨false, (merged inputs k).vals⟩ := by
      rw [compactOuts, List.map_map, List.map_map]
      exact prod_compactParts hfences hne k
    simp only [List.map_append, List.prod_append, hinputs, houts, Delta.vals_mul]
  · rw [compactOuts, ← List.map_append]
    refine List.Perm.map _ ?_
    simpa using List.filter_append_perm (fun p : SegName × Share => decide (p.2.keys = []))
      (compactParts plan inputs)
  · have hpart : ∀ c : SegName × Share → Bool, ∃ ws,
        (((compactParts plan inputs).filter c).map pair).mapM (fun o => writePiece env o.1 o.2) =
          .ok ws ∧ List.Forall₂ (fun o w => w.name = o.1 ∧
            PieceHolds env.lz env.opts.checksums w.file w.ord o.2)
              (((compactParts plan inputs).filter c).map pair) ws := by
      refine fun c => mapM_ok (fun o ho => ?_)
      obtain ⟨p, hp, rfl⟩ := List.mem_map.mp ho
      have hmem : pair p ∈ compactOuts plan inputs := List.mem_map_of_mem (List.mem_filter.mp hp).1
      exact writePiece_ok env hclaims hsize p.1 (hw _ hmem)
        (Or.inr (fun e he => ((hheld _ hmem).2.2 e he).2.1))
    obtain ⟨empties, hempties, hfirst⟩ := hpart (fun p => p.2.keys = [])
    obtain ⟨out, hout, hbehind⟩ := hpart (fun p => ¬ p.2.keys = [])
    refine ⟨out ++ empties, fun cursors heads walkCached => ?_, List.rel_append hbehind hfirst⟩
    rw [hrun, hempties, hout]
    rfl

/-- A partition, and a piece that deletes one of its keys. -/
def partInputs : List Input :=
  [⟨[⟨[1], [[8]], false⟩, ⟨[5], [[3]], false⟩], none⟩,
    ⟨[⟨[1], [], true⟩, ⟨[2], [[7]], false⟩], none⟩]

/-- Their merge over two fences. -/
def partPlan : MergePlan := ⟨7, 9, 2, some [([], some [4]), ([4], none)], 1000, true, true, false⟩

lemma allKeys_part : allKeys partInputs = [[1], [2], [5]] := by
  rw [allKeys, partInputs]
  simp +decide [Input.keys, List.mergeSort, List.MergeSort.Internal.splitInTwo]

/-- The deleted key is in no output, and the two that are left are read back, each of its own. -/
theorem compactRun_preserves_delete :
    ∃ written : List Output, compactRun (tierEnv 64) partPlan partInputs = .ok written ∧
      ∃ outs : List (SegName × List Entry),
        List.Forall₂ (fun o w => w.name = o.1 ∧
          PieceHolds (tierEnv 64).lz true w.file w.ord o.2) outs written ∧
        outs.Perm [(⟨.par, 7, 9, ([], some [4])⟩, [⟨[2], [[7]], false⟩]),
          (⟨.par, 8, 9, ([4], none)⟩, [⟨[5], [[3]], false⟩])] := by
  have hok : ∀ s ∈ partInputs, s.Ok := by
    intro s hs
    fin_cases hs
    · exact ⟨by decide, by simp⟩
    · exact ⟨by decide, by simp⟩
  have hfor : FencesFor [([], some [4]), ([4], none)] (allKeys partInputs) := by
    refine ⟨?_, ?_, fun k _ => ?_⟩
    · intro f hf x hx
      fin_cases hf
      · rw [← Option.some.inj hx]
        decide
      · exact absurd hx (by simp)
    · exact List.pairwise_pair.mpr ⟨[4], rfl, le_refl _⟩
    · rcases lt_or_ge k [4] with h | h
      · exact ⟨_, List.mem_cons_self, nil_le k, fun x hx => by rw [← Option.some.inj hx]; exact h⟩
      · exact ⟨_, List.mem_cons_of_mem _ List.mem_cons_self, h, fun x hx => absurd hx (by simp)⟩
  have houts : compactOuts partPlan partInputs
      = [(⟨.par, 7, 9, ([], some [4])⟩, [⟨[2], [[7]], false⟩]),
      (⟨.par, 8, 9, ([4], none)⟩, [⟨[5], [[3]], false⟩])] := by
    rw [compactOuts, compactParts, allKeys_part]
    decide
  obtain ⟨-, -, -, first, behind, hperm, -, hwritten⟩ := compactRun_preserves (tierEnv 64) partPlan
    partInputs hok (by rw [allKeys_part]; simp)
    (fun fs hfs => by rw [← Option.some.inj hfs]; exact hfor)
  obtain ⟨written, hrun, hholds⟩ := hwritten (claims_tierEnv 64) (by decide) (by
    rw [houts]
    intro o ho
    refine ⟨?_, ?_, ?_⟩
    · fin_cases ho <;> decide
    · fin_cases ho
      · exact fun e he => by rw [List.mem_singleton.mp he]; exact ⟨by decide, by decide, by decide⟩
      · exact fun e he => by rw [List.mem_singleton.mp he]; exact ⟨by decide, by decide, by decide⟩
    · fin_cases ho <;> decide)
  rw [houts] at hperm
  exact ⟨written, hrun true true false, behind ++ first, hholds,
    List.perm_append_comm.trans hperm⟩

end Supdb

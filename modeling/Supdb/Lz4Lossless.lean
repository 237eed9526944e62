import Supdb.Lz4Parse

/-!
# The encoder is lossless, and where it is not

* `Encoder.compressInto_spec` – a call over tables left by any calls writes a block that says its
  input, while the lazy parse looks no further ahead than the shortest match or searches nothing.
* `Encoder.Reachable` – the encoders any calls leave, whatever their efforts;
  `Encoder.Reachable.ok`.
* `Lossless e` – what the encoder is for, under one effort.
* **`lossless_iff`** – an effort is lossless exactly where it searches nothing or looks at most four
  positions ahead.

A search further ahead joins positions that the match then taken does not cover.  The position
behind that match is searched though it is in its chain already, and the nearest candidate of its
own chain is itself: a match with offset zero, which no decoder takes.
-/

namespace Supdb

open StorageLib

/-! ## One call -/

/-- The efforts whose lazy parse never searches a position it has joined. -/
def Effort.LooksBehind (e : Effort) : Prop := e.attempts = 0 ∨ e.lazy ≤ MINMATCH

/-- Every parse chains. -/
lemma Encoder.parse_spec {enc : Encoder} {input : Bytes} {e : Effort} (h : enc.Ok)
    (hmax : input.length ≤ MAX_INPUT) (he : e.LooksBehind) :
    ∃ seqs enc', enc.parse input e = some (seqs, enc') ∧ Chains input 0 seqs.reverse ∧ enc'.Ok := by
  rw [Encoder.parse]
  split
  · exact ⟨[], enc, rfl, Nat.zero_le _, h⟩
  rename_i hbig
  rw [not_or, Nat.not_lt] at hbig
  have hn : MFLIMIT ≤ input.length := by omega
  split
  · exact lazyParse_spec h hmax (he.resolve_left hbig.2) hn
  · obtain ⟨best, enc', hs, hlen, hok, hok'⟩ := search_spec (e := e) h hmax hn
    obtain ⟨seqs, hp, hch⟩ := shortest_spec (e := e) hmax hn hlen hok
    rw [hs]
    simp only [Option.bind_eq_bind, Option.bind_some, hp]
    exact ⟨seqs, enc', rfl, hch, hok'⟩

/-- **One call** writes a block that says its input, inside any output of `maxOutput` bytes. -/
lemma Encoder.compressInto_spec {enc : Encoder} {input out : Bytes} {e : Effort} (h : enc.Ok)
    (hmax : input.length ≤ MAX_INPUT) (hout : maxOutput input.length ≤ out.length)
    (he : e.LooksBehind) :
    ∃ len enc' out', enc.compressInto input out e = some (some len, enc', out') ∧
      len ≤ maxOutput input.length
      ∧ blockFrom (out'.take len) input.length 0 [] = some input ∧ enc'.Ok := by
  obtain ⟨seqs, enc', hp, hch, hok⟩ := Encoder.parse_spec h hmax he
  have hlen := length_blockBytes hch
  rw [Nat.sub_zero] at hlen
  have hroom : (blockBytes input 0 seqs.reverse).length ≤ maxOutput input.length := by
    rw [maxOutput]
    omega
  have hw : Written [] out out.length := ⟨List.nil_prefix, rfl⟩
  obtain ⟨out', hem, hwr⟩ := emitFrom_spec (w := []) hw hch (by rw [List.nil_append]; omega)
  rw [List.nil_append] at hem hwr
  rw [Encoder.compressInto, if_neg (by omega), hp]
  simp only [Option.bind_eq_bind, Option.bind_some]
  rw [List.length_nil] at hem
  rw [hem]
  refine ⟨_, enc', out', rfl, hroom, ?_, hok⟩
  rw [hwr.take_eq]
  have := blockFrom_blockBytes [] hch
  simpa using this

/-! ## The tables after any call -/

/-- The heads with no position from `n` on joined. -/
structure HeadsOk (base n : ℕ) (head : List ℕ) : Prop where
  heads : head.length = 2 ^ HASH_LOG
  le : ∀ x ∈ head, x ≤ base + n

section AnyCall

variable {input : Bytes} {e : Effort} {base limit lastStart : ℕ}

lemma insertAt_heads {head chain : List ℕ} {r : List ℕ × List ℕ} {s h n : ℕ}
    (hh : HeadsOk base n head) (hs : s < n)
    (he : insertAt head chain s h base = some r) : HeadsOk base n r.1 := by
  simp only [insertAt, Option.bind_eq_bind, Option.bind_eq_some_iff] at he
  obtain ⟨prev, -, d, -, he⟩ := he
  have hset : HeadsOk base n (head.set h (base + s + 1)) := by
    refine ⟨by rw [List.length_set]; exact hh.heads, ?_⟩
    intro x hx
    rcases List.mem_or_eq_of_mem_set hx with hx | rfl
    · exact hh.le x hx
    · omega
  split at he
  · rw [Option.some.injEq] at he
    rw [← he]
    exact hset
  · simp at he

lemma joinUpTo_heads {p n : ℕ} {t t' : Tables} (hp : p ≤ n) (hh : HeadsOk base n t.head)
    (he : joinUpTo input base p t = some t') : HeadsOk base n t'.head := by
  have hloop : ∀ (m s : ℕ) (hc hc' : List ℕ × List ℕ), s + m ≤ n ∨ m = 0 → HeadsOk base n hc.1 →
      (List.range' s m).foldlM (fun (hc : List ℕ × List ℕ) s => do
        let v ← readWord 4 input s
        insertAt hc.1 hc.2 s (hash v) base) hc = some hc' → HeadsOk base n hc'.1 := by
    intro m
    induction m with
    | zero =>
        intro s hc hc' _ h heq
        simp only [List.range'_zero, List.foldlM_nil, Option.pure_def, Option.some.injEq] at heq
        rw [← heq]
        exact h
    | succ m ih =>
        intro s hc hc' hm h heq
        rw [List.range'_succ, List.foldlM_cons, Option.bind_eq_bind, Option.bind_eq_some_iff] at heq
        obtain ⟨hc1, hstep, heq⟩ := heq
        rw [Option.bind_eq_bind, Option.bind_eq_some_iff] at hstep
        obtain ⟨v, -, hins⟩ := hstep
        exact ih (s + 1) hc1 hc' (by omega) (insertAt_heads h (by omega) hins) heq
  rw [joinUpTo, Option.bind_eq_bind, Option.bind_eq_some_iff] at he
  obtain ⟨hc, hl, he⟩ := he
  simp only [Option.some.injEq] at he
  rw [← he]
  exact hloop _ _ (t.head, t.chain) hc (by omega) hh hl

lemma longestAt_heads {p n attempts : ℕ} {t : Tables} {r : (ℕ × ℕ) × Tables} (hp : p ≤ n)
    (hh : HeadsOk base n t.head) (he : longestAt input p limit attempts base t = some r) :
    HeadsOk base n r.2.head := by
  simp only [longestAt, Option.bind_eq_bind, Option.bind_eq_some_iff] at he
  obtain ⟨t1, hj, v, -, m, -, cand, -, b, -, he⟩ := he
  rw [Option.some.injEq] at he
  rw [← he]
  exact joinUpTo_heads hp hh hj

lemma ahead_heads (fuel : ℕ) :
    ∀ {k s : ℕ} {best : ℕ × ℕ} {t : Tables} {r : ℕ × (ℕ × ℕ) × Tables},
      HeadsOk base lastStart t.head →
      ahead input e base limit lastStart fuel k s best t = some r →
      HeadsOk base lastStart r.2.2.head := by
  induction fuel with
  | zero =>
      intro k s best t r _ he
      simp [ahead] at he
  | succ fuel ih =>
      intro k s best t r hh he
      rw [ahead] at he
      split at he
      · rw [Option.some.injEq] at he
        rw [← he]
        exact hh
      split at he
      · rw [Option.some.injEq] at he
        rw [← he]
        exact hh
      rw [Option.bind_eq_bind, Option.bind_eq_some_iff] at he
      obtain ⟨⟨found, t1⟩, hf, he⟩ := he
      have h1 := longestAt_heads (by omega) hh hf
      simp only at he
      split at he
      · exact ih h1 he
      · exact ih h1 he

lemma lazyFrom_heads (fuel : ℕ) :
    ∀ {s anchor : ℕ} {t : Tables} {seqs : List Seq} {r : List Seq × Tables},
      HeadsOk base lastStart t.head → lazyFrom input e base limit lastStart fuel s anchor t seqs
      = some r → HeadsOk base lastStart r.2.head := by
  induction fuel with
  | zero =>
      intro s anchor t seqs r hh he
      rw [lazyFrom] at he
      split at he
      · simp at he
      · rw [Option.some.injEq] at he
        rw [← he]
        exact hh
  | succ fuel ih =>
      intro s anchor t seqs r hh he
      rw [lazyFrom] at he
      split at he
      · simp only [Option.bind_eq_bind, Option.bind_eq_some_iff] at he
        obtain ⟨⟨best, t1⟩, hf, he⟩ := he
        have h1 := longestAt_heads (by omega) hh hf
        split at he
        · exact ih h1 he
        · rw [Option.bind_eq_some_iff] at he
          obtain ⟨⟨s', best', t'⟩, ha, he⟩ := he
          rw [Option.bind_eq_some_iff] at he
          obtain ⟨lit, -, he⟩ := he
          exact ih (ahead_heads _ h1 ha) he
      · rw [Option.some.injEq] at he
        rw [← he]
        exact hh

end AnyCall

/-- **Every call leaves tables that name no position of the next group**, whatever its effort. -/
lemma Encoder.compressInto_ok {enc enc' : Encoder} {input out out' : Bytes} {e : Effort}
    {r : Option ℕ} (h : enc.Ok)
    (he : enc.compressInto input out e = some (r, enc', out')) : enc'.Ok := by
  rw [Encoder.compressInto] at he
  split at he
  · simp only [Option.some.injEq, Prod.mk.injEq] at he
    rw [← he.2.1]
    exact h
  rename_i hsize
  rw [not_or, Nat.not_lt] at hsize
  simp only [Option.bind_eq_bind, Option.bind_eq_some_iff] at he
  obtain ⟨⟨seqs, enc1⟩, hp, ⟨len, out1⟩, -, he⟩ := he
  simp only [Option.some.injEq, Prod.mk.injEq] at he
  rw [← he.2.1]
  -- a search that stays behind is settled by its specification; the lazy parse by its heads
  rcases Nat.lt_or_ge 0 e.lazy with hlazy | hlazy
  · rw [Encoder.parse] at hp
    split at hp
    · simp only [Option.some.injEq, Prod.mk.injEq] at hp
      rw [← hp.2]
      exact h
    simp only [lazyParse, Option.bind_eq_bind, Option.bind_eq_some_iff] at hp
    obtain ⟨ls, hls, lim, -, ⟨qs, t⟩, hl, hp⟩ := hp
    have hls' : ls ≤ input.length := by
      rw [checkedSub] at hls
      split at hls
      · rw [Option.some.injEq] at hls
        omega
      · simp at hls
    simp only [Option.some.injEq, Prod.mk.injEq] at hp
    obtain ⟨hfresh, hbase⟩ := h.freshBase
    have hh := lazyFrom_heads (e := e) _
      (t :=
        ⟨enc.freshBase.head,
        (enc.freshBase.chain ++ List.replicate (input.length - enc.freshBase.chain.length) 0).take
        input.length, 0⟩) ⟨hfresh.heads, fun x hx => (hfresh.le x hx).trans (Nat.le_add_right _ _)⟩ hl
    rw [← hp.2]
    refine ⟨hh.heads, ?_, by simp only; omega⟩
    intro x hx
    have := hh.le x hx
    simp only
    omega
  · obtain ⟨seqs', enc2, hp', -, hok⟩ :=
      Encoder.parse_spec h hsize.1 (e := e) (Or.inr (by rw [MINMATCH]; omega))
    rw [hp, Option.some.injEq, Prod.mk.injEq] at hp'
    rw [hp'.2]
    exact hok

/-- The encoders that calls leave, any inputs and efforts. -/
inductive Encoder.Reachable : Encoder → Prop
  | new : Reachable Encoder.new
  | call {enc enc' : Encoder} {input out out' : Bytes} {e : Effort} {r : Option ℕ}
      (h : Reachable enc)
      (he : enc.compressInto input out e = some (r, enc', out')) : Reachable enc'

lemma Encoder.Reachable.ok {enc : Encoder} (h : enc.Reachable) : enc.Ok := by
  induction h with
  | new => exact Encoder.new_ok
  | call _ he ih => exact Encoder.compressInto_ok ih he

/-- **What the encoder is for**, under one effort: whatever calls came before, every input it takes
is written as a block no longer than promised, and the careful decoder reads the input back from it.
-/
def Lossless (e : Effort) : Prop :=
  ∀ enc : Encoder, enc.Reachable → ∀ input out : Bytes, input.length ≤ MAX_INPUT →
    maxOutput input.length ≤ out.length →
    ∃ len enc' out', enc.compressInto input out e = some (some len, enc', out') ∧
      len ≤ maxOutput input.length ∧ ∀ dst : Bytes, dst.length = input.length →
      carefulLoop (out'.take len) ⟨0, 0, dst⟩ = .ok (input.length, input)

lemma lossless_of_looksBehind {e : Effort} (he : e.LooksBehind) : Lossless e := by
  intro enc henc input out hmax hout
  obtain ⟨len, enc', out', hc, hle, hblock, -⟩ := Encoder.compressInto_spec henc.ok hmax hout he
  refine ⟨len, enc', out', hc, hle, ?_⟩
  intro dst hdst
  have hdec := @carefulLoop_decodes (out'.take len)
    [] dst _ 0 (⟨List.nil_prefix, hdst⟩ : Written [] dst input.length)
  rw [hblock] at hdec
  rw [List.length_nil] at hdec
  generalize carefulLoop (out'.take len) ⟨0, 0, dst⟩ = got at hdec ⊢
  cases hdec with
  | ok hw =>
      have heq := hw.take_eq
      rw [← hw.length, List.take_length] at heq
      rw [heq]

/-! ## Looking further ahead -/

section Further

variable {input : Bytes} {base limit lastStart : ℕ} {e e' : Effort}

/-- A walk has no use for more tries than the positions its chain can name. -/
lemma walk_enough {window : Bool} {p v maxLen : ℕ} {chain : List ℕ} (tries m : ℕ) :
    ∀ {cand : ℕ} {best : ℕ × ℕ}, cand ≤ base + tries →
      walk window input p v maxLen base chain (tries + m) cand best
        = walk window input p v maxLen base chain tries cand best := by
  induction tries with
  | zero =>
      intro cand best hcand
      cases m with
      | zero => rfl
      | succ m =>
          simp only [walk]
          rw [if_neg (by omega)]
  | succ tries ih =>
      intro cand best hcand
      rw [Nat.succ_add, walk, walk]
      split
      · simp only [Option.bind_eq_bind]
        rcases tooFar window p (cand - base - 1) with _ | far
        · rfl
        rcases tryCandidate input (cand - base - 1) p v maxLen best with _ | ⟨b, last⟩
        · rfl
        rcases chain[cand - base - 1]? with _ | c
        · rfl
        simp only [Option.bind_some, checkedSub]
        split
        · rfl
        split
        · rfl
        split
        · rfl
        split
        · simp only [Option.bind_some]
          exact ih (by omega)
        · rfl
      · rfl

/-- Two efforts that search alike: by as many tries, or both by as many as there are positions to
search; and as far ahead, or both past the last start. -/
structure Effort.Like (lastStart : ℕ) (e e' : Effort) : Prop where
  attempts : e.attempts = e'.attempts ∨ (lastStart ≤ e.attempts ∧ lastStart ≤ e'.attempts)
  lazy : e.lazy = e'.lazy ∨ (lastStart ≤ e.lazy ∧ lastStart ≤ e'.lazy)

lemma longestAt_like (hl : e.Like lastStart e') {p : ℕ} {t : Tables} (hp : p ≤ lastStart)
    (hh : HeadsOk base lastStart t.head) :
    longestAt input p limit e.attempts base t = longestAt input p limit e'.attempts base t := by
  rcases hl.attempts with heq | ⟨h1, h2⟩
  · rw [heq]
  rw [longestAt, longestAt]
  rcases hj : joinUpTo input base p t with _ | t1
  · simp only [Option.bind_eq_bind, Option.bind_none]
  have hh1 := joinUpTo_heads hp hh hj
  rcases readWord 4 input p with _ | v
  · simp only [Option.bind_eq_bind, Option.bind_none]
  rcases checkedSub limit p with _ | maxLen
  · simp only [Option.bind_eq_bind, Option.bind_none]
  simp only [Option.bind_eq_bind, Option.bind_some]
  rcases hc : t1.head[hash v]? with _ | cand
  · simp only [Option.bind_none]
  have hcand := hh1.le cand (List.mem_of_getElem? hc)
  simp only [Option.bind_some]
  obtain ⟨m1, hm1⟩ := Nat.exists_eq_add_of_le h1
  obtain ⟨m2, hm2⟩ := Nat.exists_eq_add_of_le h2
  rw [hm1, hm2, walk_enough _ m1 hcand, walk_enough _ m2 hcand]

lemma ahead_like (hl : e.Like lastStart e') (fuel : ℕ) :
    ∀ {k s : ℕ} {best : ℕ × ℕ} {t : Tables}, HeadsOk base lastStart t.head →
      ahead input e base limit lastStart fuel k s best t = ahead input e' base limit lastStart fuel
      k s best t := by
  induction fuel with
  | zero => intro k s best t _; rfl
  | succ fuel ih =>
      intro k s best t hh
      have hlazy := hl.lazy
      rw [ahead, ahead]
      -- past the last start it makes no difference which of the two bounds ends the loop
      rcases Nat.lt_or_ge lastStart (s + (k + 1)) with hpast | hin
      · simp only [if_pos hpast, ite_self]
      have hiff : (e.lazy < k + 1) = (e'.lazy < k + 1) := by
        rw [eq_iff_iff]
        omega
      simp only [hiff, if_neg (Nat.not_lt.mpr hin)]
      split
      · rfl
      rw [longestAt_like hl hin hh]
      rcases hf : longestAt input (s + (k + 1)) limit e'.attempts base t with _ | ⟨found, t1⟩
      · simp only [Option.bind_eq_bind, Option.bind_none]
      have h1 := longestAt_heads hin hh hf
      simp only [Option.bind_eq_bind, Option.bind_some]
      rw [ih h1, ih h1]

lemma lazyFrom_like (hl : e.Like lastStart e') (fuel : ℕ) :
    ∀ {s anchor : ℕ} {t : Tables} {seqs : List Seq}, HeadsOk base lastStart t.head →
      lazyFrom input e base limit lastStart fuel s anchor t seqs
        = lazyFrom input e' base limit lastStart fuel s anchor t seqs := by
  induction fuel with
  | zero => intro s anchor t seqs _; rw [lazyFrom, lazyFrom]
  | succ fuel ih =>
      intro s anchor t seqs hh
      rw [lazyFrom, lazyFrom]
      split
      · rename_i hin
        simp only
        rw [longestAt_like hl hin hh]
        rcases hf : longestAt input s limit e'.attempts base t with _ | ⟨best, t1⟩
        · simp only [Option.bind_eq_bind, Option.bind_none]
        have h1 := longestAt_heads hin hh hf
        simp only [Option.bind_eq_bind, Option.bind_some]
        rw [ih h1, ahead_like hl _ h1]
        split
        · rfl
        rcases ha : ahead input e' base limit lastStart (lastStart + 1) 0 s best t1 with _ | ⟨s', best', t'⟩
        · simp only [Option.bind_none]
        simp only [Option.bind_some]
        rcases checkedSub s' anchor with _ | lit
        · simp only [Option.bind_none]
        exact ih (ahead_heads _ h1 ha)
      · rfl

/-- Efforts that search alike make the same call of a new encoder. -/
lemma compressInto_like (hl : e.Like (input.length - MFLIMIT) e') (hpos : 0 < e.attempts)
    (hpos' : 0 < e'.attempts) (hlazy : 0 < e.lazy) (hlazy' : 0 < e'.lazy) (out : Bytes) :
    Encoder.new.compressInto input out e = Encoder.new.compressInto input out e' := by
  have hok := Encoder.new_ok.freshBase.1
  rw [Encoder.compressInto, Encoder.compressInto]
  split
  · rfl
  have hparse : Encoder.new.parse input e = Encoder.new.parse input e' := by
    rw [Encoder.parse, Encoder.parse, if_pos hlazy, if_pos hlazy']
    have hiff : (input.length < MFLIMIT + 1 ∨ e.attempts = 0)
      = (input.length < MFLIMIT + 1 ∨ e'.attempts = 0) := by
      rw [eq_iff_iff]
      omega
    simp only [hiff]
    split
    · rfl
    rename_i hbig
    have hn : MFLIMIT ≤ input.length := by omega
    rw [lazyParse, lazyParse]
    simp only [Option.bind_eq_bind, checkedSub_of_le hn, Option.bind_some]
    rcases checkedSub input.length LASTLITERALS with _ | limit
    · simp only [Option.bind_none]
    simp only [Option.bind_some]
    rw [lazyFrom_like hl _ ⟨hok.heads, fun x hx => (hok.le x hx).trans (Nat.le_add_right _ _)⟩]
  rw [hparse]

end Further

/-- A group with a match of four behind its first byte, and nothing more to match.  Its first bytes
hash low, which keeps the tables small to evaluate. -/
def shortMatchGroup : Bytes := [0, 0, 0, 0, 0, 81, 47, 139, 14, 142, 1, 2, 3, 4, 5, 6, 7, 8]

/-- What a new encoder's call comes to on that group, read back. -/
def readBack (e : Effort) : Option (Decoded (ℕ × Bytes)) :=
  match Encoder.new.compressInto shortMatchGroup (List.replicate (maxOutput 18) 0) e with
  | some (some len, _, out) => some (carefulLoop (out.take len) ⟨0, 0, List.replicate 18 0⟩)
  | _ => none

/-- Looking five or six ahead, with any number of tries the group has positions for. -/
lemma readBack_fails : ∀ a ∈ List.range' 1 6, ∀ l ∈ [5, 6], readBack ⟨a, 0, 8, l⟩ = some .err := by
  decide +kernel

lemma readBack_far {e : Effort} (ha : 0 < e.attempts) (hl : MINMATCH < e.lazy) :
    readBack e = some .err := by
  rw [MINMATCH] at hl
  have hlike : e.Like (shortMatchGroup.length - MFLIMIT)
      ⟨min e.attempts 6, 0, 8, min e.lazy 6⟩ := by
    have h18 : shortMatchGroup.length = 18 := rfl
    rw [h18, MFLIMIT]
    exact ⟨by simp only; omega, by simp only; omega⟩
  have hfin := readBack_fails (min e.attempts 6) (by rw [List.mem_range'_1]; omega)
    (min e.lazy 6) (by
    have h56 : min e.lazy 6 = 5 ∨ min e.lazy 6 = 6 := by omega
    rcases h56 with h | h
    · rw [h]; exact List.mem_cons_self
    · rw [h]; exact List.mem_cons_of_mem _ List.mem_cons_self)
  rw [readBack, compressInto_like hlike ha (by simp only; omega) (by omega) (by simp only; omega)]
  exact hfin

/-- Looking further ahead than the shortest match, the block of the group has a match with offset
zero, which no decoder takes. -/
lemma not_lossless_of_far {e : Effort} (ha : 0 < e.attempts) (hl : MINMATCH < e.lazy) :
    ¬Lossless e := by
  intro h
  obtain ⟨len, enc', out', hcall, -, hdec⟩ :=
    h Encoder.new .new shortMatchGroup (List.replicate (maxOutput 18) 0) (by decide) (by decide)
  have hfar := readBack_far ha hl
  rw [readBack, hcall] at hfar
  simp only [Option.some.injEq] at hfar
  rw [hdec _ (by decide)] at hfar
  simp at hfar

/-- **An effort is lossless exactly where it searches nothing or looks at most four positions
ahead.** -/
theorem lossless_iff (e : Effort) : Lossless e ↔ e.attempts = 0 ∨ e.lazy ≤ MINMATCH := by
  constructor
  · intro h
    by_contra hc
    rw [not_or, Nat.not_le] at hc
    exact not_lossless_of_far (Nat.pos_of_ne_zero hc.1) hc.2 h
  · exact lossless_of_looksBehind

/-- The shipped effort looking five ahead is not lossless. -/
theorem lossless_not_five : ¬Lossless { Effort.SHIPPED with lazy := 5 } :=
  not_lossless_of_far (by decide) (by decide)

end Supdb

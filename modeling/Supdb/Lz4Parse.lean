import Supdb.Lz4Match

/-!
# Both parses choose sequences that chain

* `ahead_spec`, **`lazyParse_spec`** – the lazy parse, while it looks no further ahead than the
  shortest match: what it searches is never past a position it has joined.
* `searchAt_spec`, **`search_spec`** – a match or none at every position, the insides of long
  matches included.
* `Path.Ok` – what the shortest path keeps; **`shortest_spec`** – the way back from its end chains.
-/

namespace Supdb

open StorageLib

/-! ## The lazy parse -/

section Lazy

variable {input : Bytes} {e : Effort} {base : ℕ}

/-- A match at `s` that ends in time. -/
def Takes (input : Bytes) (s : ℕ) (best : ℕ × ℕ) : Prop :=
  Repeats input s best.2 best.1 ∧ s + best.1 + LASTLITERALS ≤ input.length

/-- **Looking ahead** ends with a match, at most `lazy` positions before those joined. -/
lemma ahead_spec (hmax : input.length ≤ MAX_INPUT) (fuel : ℕ) :
    ∀ {k s : ℕ} {best : ℕ × ℕ} {t : Tables}, t.ChainsLinked base input.length → t.ins ≤ s + k →
      k ≤ e.lazy → Takes input s best → s + k + MFLIMIT ≤ input.length →
      input.length < s + k + fuel + MFLIMIT →
      ∃ s' best' t', ahead input e base (input.length - LASTLITERALS)
          (input.length - MFLIMIT) fuel k s best t = some (s', best', t')
        ∧ s ≤ s' ∧ Takes input s' best' ∧ t'.ChainsLinked base input.length ∧ t'.ins ≤ s' + e.lazy := by
  induction fuel with
  | zero =>
      intro k s best t h hins hk htakes hlast hfuel
      omega
  | succ fuel ih =>
      intro k s best t h hins hk htakes hlast hfuel
      have hstop : ∃ s' best' t', some (s, best, t) = some (s', best', t')
          ∧ s ≤ s' ∧ Takes input s' best' ∧ t'.ChainsLinked base input.length ∧ t'.ins ≤ s' + e.lazy :=
        ⟨s, best, t, rfl, le_refl s, htakes, h, by omega⟩
      rw [ahead]
      split
      · exact hstop
      rename_i hlazy
      split
      · exact hstop
      rename_i hnext
      obtain ⟨found, t1, he, hb, hend, hi, hl⟩ :=
        longestAt_spec h (p := s + (k + 1)) (by omega) (by omega) hmax
      rw [he]
      simp only [Option.bind_eq_bind, Option.bind_some]
      split
      · rename_i hlonger
        have hleast := htakes.1.least
        have htakes' : Takes input (s + (k + 1)) found := by
          refine ⟨hb.resolve_left ?_, hend⟩
          omega
        obtain ⟨s', best', t', he', hs', hrest⟩ := ih hl (by omega) (Nat.zero_le _) htakes' (by omega) (by omega)
        exact ⟨s', best', t', he', by omega, hrest⟩
      · exact ih hl (by omega) (by omega) htakes (by omega) (by omega)

/-- **The turns of the lazy parse.**  Looking no further ahead than the shortest match, a match
taken covers every position joined, so the next search is behind none of them. -/
lemma lazyFrom_spec (hmax : input.length ≤ MAX_INPUT) (hlazy : e.lazy ≤ MINMATCH)
    (hn : MFLIMIT ≤ input.length) (fuel : ℕ) :
    ∀ {s anchor : ℕ} {t : Tables} {seqs : List Seq}, t.ChainsLinked base input.length → t.ins ≤ s →
      anchor ≤ s → s ≤ input.length →
      (∀ rest, Chains input anchor rest → Chains input 0 (seqs ++ rest)) →
      input.length < s + fuel + MFLIMIT →
      ∃ seqs' t', lazyFrom input e base (input.length - LASTLITERALS)
          (input.length - MFLIMIT) fuel s anchor t seqs = some (seqs', t')
        ∧ Chains input 0 seqs' ∧ t'.ChainsLinked base input.length ∧ t'.ins ≤ input.length := by
  have hdone : ∀ {s anchor : ℕ} {t : Tables} {seqs : List Seq}, t.ChainsLinked base input.length →
      t.ins ≤ s → anchor ≤ s → s ≤ input.length →
      (∀ rest, Chains input anchor rest → Chains input 0 (seqs ++ rest)) →
      ∃ seqs' t', some (seqs, t) = some (seqs', t')
        ∧ Chains input 0 seqs' ∧ t'.ChainsLinked base input.length ∧ t'.ins ≤ input.length := by
    intro s anchor t seqs h hins hanchor hend hch
    have hseqs := hch [] (show anchor ≤ input.length by omega)
    rw [List.append_nil] at hseqs
    exact ⟨seqs, t, rfl, hseqs, h, by omega⟩
  induction fuel with
  | zero =>
      intro s anchor t seqs h hins hanchor hend hch hfuel
      rw [lazyFrom, if_neg (by omega)]
      exact hdone h hins hanchor hend hch
  | succ fuel ih =>
      intro s anchor t seqs h hins hanchor hend hch hfuel
      rw [lazyFrom]
      split
      · rename_i hs
        simp only
        obtain ⟨best, t1, he, hb, htime, hi, hl⟩ :=
          longestAt_spec h (p := s) hins (by omega) hmax
        rw [he]
        simp only [Option.bind_eq_bind, Option.bind_some]
        split
        · exact ih hl (by omega) (by omega) (by rw [MFLIMIT] at *; omega) hch (by omega)
        · rename_i hlong
          have htakes : Takes input s best := by
            refine ⟨hb.resolve_left ?_, htime⟩
            rw [MINMATCH] at *
            omega
          obtain ⟨s', best', t', he', hs', htakes', hl', hi'⟩ :=
            ahead_spec (e := e) hmax (input.length - MFLIMIT + 1) hl (k := 0) (by omega)
              (Nat.zero_le _) htakes (by omega) (by omega)
          rw [he']
          simp only [Option.bind_some]
          rw [checkedSub_of_le (by omega), Option.bind_some]
          have hleast := htakes'.1.least
          have hreach := htakes'.1.reach
          have hmod : best'.2 % 2 ^ 16 = best'.2 := by
            rw [MAX_DISTANCE] at hreach
            omega
          refine ih hl' (by omega) (le_refl _) (by have := htakes'.2; omega) ?_ (by rw [MINMATCH] at hleast; omega)
          intro rest hrest
          rw [List.append_assoc]
          refine hch _ ⟨rfl, ?_, ?_⟩
          · simp only [hmod]
            rw [show anchor + (s' - anchor) = s' by omega]
            exact htakes'.1
          · simp only
            rw [show anchor + (s' - anchor) = s' by omega]
            exact hrest
      · exact hdone h hins hanchor hend hch

end Lazy

/-! ## The encoder between groups -/

/-- **What the tables are between groups**: no head is over the base, so none names a position of
the next group. -/
structure Encoder.Ok (enc : Encoder) : Prop where
  heads : enc.head.length = 2 ^ HASH_LOG
  le : ∀ x ∈ enc.head, x ≤ enc.base
  base_lt : enc.base < 2 ^ 32

lemma Encoder.new_ok : Encoder.new.Ok := by
  refine ⟨List.length_replicate, ?_, by decide⟩
  intro x hx
  rw [Encoder.new] at hx
  exact (List.eq_of_mem_replicate hx).le

/-- A fresh base leaves room for the largest group before it would wrap. -/
lemma Encoder.Ok.freshBase {enc : Encoder} (h : enc.Ok) :
    enc.freshBase.Ok ∧ enc.freshBase.base + MAX_INPUT + 1 < 2 ^ 32 := by
  rw [Encoder.freshBase, MAX_INPUT]
  split
  · refine ⟨⟨by rw [List.length_map]; exact h.heads, ?_, by simp only; omega⟩, by simp only; omega⟩
    intro x hx
    obtain ⟨y, -, rfl⟩ := List.mem_map.mp hx
    exact Nat.zero_le _
  · exact ⟨h, by omega⟩

/-- At a group's start no position is joined, whatever the links are. -/
lemma Encoder.Ok.linked {enc : Encoder} (h : enc.Ok) {n : ℕ} {chain : List ℕ}
    (hc : chain.length = n) : ChainsLinked enc.base n 0 enc.head chain :=
  ⟨h.heads, h.le, hc, fun q hq => absurd hq (Nat.not_lt_zero q)⟩

/-- Behind a group no head is over the next base. -/
lemma ChainsLinked.ok {base n ins : ℕ} {head chain chain' : List ℕ}
    (h : ChainsLinked base n ins head chain) (hins : ins ≤ n)
    (hbase : base + n + 1 < 2 ^ 32) : (⟨head, chain', base + n + 1⟩ : Encoder).Ok := by
  refine ⟨h.heads, ?_, hbase⟩
  intro x hx
  have := h.le x hx
  simp only
  omega

/-- **The lazy parse chains**, over tables left by any groups. -/
lemma lazyParse_spec {enc : Encoder} {input : Bytes} {e : Effort} (h : enc.Ok)
    (hmax : input.length ≤ MAX_INPUT) (hlazy : e.lazy ≤ MINMATCH) (hn : MFLIMIT ≤ input.length) :
    ∃ seqs enc', lazyParse enc input e = some (seqs, enc') ∧ Chains input 0 seqs.reverse ∧
    enc'.Ok := by
  obtain ⟨hfresh, hbase⟩ := h.freshBase
  have hlim : LASTLITERALS ≤ input.length := by rw [MFLIMIT] at hn; rw [LASTLITERALS]; omega
  have hlinked : Tables.ChainsLinked enc.freshBase.base input.length
      ⟨enc.freshBase.head, (enc.freshBase.chain ++ List.replicate (input.length - enc.freshBase.chain.length) 0).take
        input.length, 0⟩ := by
    refine hfresh.linked ?_
    rw [List.length_take, List.length_append, List.length_replicate]
    omega
  obtain ⟨seqs, t, he, hch, hl, hi⟩ :=
    @lazyFrom_spec _ e _ hmax hlazy hn (input.length + 1) _ 0 _ [] hlinked (le_refl 0) (le_refl 0)
        (Nat.zero_le _) (fun rest hrest => hrest) (by omega)
  rw [lazyParse]
  simp only [Option.bind_eq_bind, Option.bind_some, checkedSub_of_le hn, checkedSub_of_le hlim, he]
  refine ⟨seqs.reverse, _, rfl, ?_, ChainsLinked.ok hl hi (by omega)⟩
  rw [List.reverse_reverse]
  exact hch

/-! ## The longest match at every position -/

section Search

variable {input : Bytes} {e : Effort} {base : ℕ}

/-- The longest matches found: none, or one that ends in time. -/
def BestOk (input : Bytes) (best : List (ℕ × ℕ)) : Prop :=
  ∀ i b, best[i]? = some b → b.1 < MINMATCH ∨ Takes input i b

/-- The search with the positions before `s` searched. -/
structure Found.Ok (input : Bytes) (base s : ℕ) (f : Found) : Prop where
  linked : ChainsLinked base input.length s f.head f.chain
  size : f.best.length = input.length
  best : BestOk input f.best
  run : ∀ p, f.run.1 < p → p + MINMATCH ≤ f.run.2.1 → Takes input p (f.run.2.1 - p, f.run.2.2)

/-- The rest of a match is a match. -/
lemma Repeats.tail {p off ml : ℕ} (h : Repeats input p off ml) {j : ℕ} (hj : j + MINMATCH ≤ ml) :
    Repeats input (p + j) off (ml - j) := by
  have hb := h.behind
  have hin := h.inside
  refine ⟨h.pos, by omega, h.reach, by omega, by omega, ?_⟩
  intro i hi
  have := h.same (j + i) (by omega)
  rw [← Nat.add_assoc] at this
  exact this

/-- A shorter match is a match. -/
lemma Repeats.cut {p off ml : ℕ} (h : Repeats input p off ml) {ml' : ℕ} (hle : ml' ≤ ml)
    (hleast : MINMATCH ≤ ml') : Repeats input p off ml' :=
  ⟨h.pos, h.behind, h.reach, hleast, by have := h.inside; omega, fun i hi => h.same i (by omega)⟩

lemma BestOk.set {best : List (ℕ × ℕ)} (h : BestOk input best) {s : ℕ} {b : ℕ × ℕ}
    (hb : Takes input s b) : BestOk input (best.set s b) := by
  intro i b' hi
  rw [List.getElem?_set] at hi
  split at hi
  · rename_i heq
    subst heq
    split at hi
    · rw [Option.some.injEq] at hi
      subst hi
      exact Or.inr hb
    · simp at hi
  · exact h i b' hi

/-- **One position searched**, or joined inside a long match. -/
lemma searchAt_spec (hmax : input.length ≤ MAX_INPUT) {s : ℕ} {f : Found} (h : f.Ok input base s)
    (hs : s + MFLIMIT ≤ input.length) :
    ∃ f', searchAt input e base (input.length - LASTLITERALS) f s = some f' ∧
    f'.Ok input base (s + 1) := by
  rw [MFLIMIT] at hs
  obtain ⟨v, hv⟩ := @readWord_four input s (by omega)
  obtain ⟨head', chain', hi, hl⟩ := insertAt_linked h.linked (by omega) v
  rw [searchAt, hv]
  simp only [Option.bind_eq_bind, Option.bind_some]
  split
  · rename_i hin
    obtain ⟨hto, hfrom⟩ := hin
    rw [RESUME] at hto
    have htakes := h.run s hfrom (by rw [MINMATCH]; omega)
    rw [checkedSub_of_le (by omega), hi]
    simp only [Option.bind_some]
    rw [if_pos (by rw [h.size]; omega)]
    exact ⟨_, rfl, hl, by rw [List.length_set]; exact h.size, h.best.set htakes, h.run⟩
  · obtain ⟨cand, hc⟩ := h.linked.get_head v
    have hcand := h.linked.head_le hc
    have hlim : s ≤ input.length - LASTLITERALS := by rw [LASTLITERALS]; omega
    obtain ⟨best', hw, hb, hle⟩ :=
      @walk_spec _ _ v _ _ _ _ _ _ true h.linked (le_refl s) (by omega)
          (show s + (input.length - LASTLITERALS - s) ≤ input.length by omega) (by omega) e.attempts _
          ((MINMATCH - 1, 0)) hcand (Or.inl rfl) (by simp only [MINMATCH, LASTLITERALS]; omega)
    rw [checkedSub_of_le hlim, hc]
    simp only [Option.bind_some, hw, hi]
    split
    · rename_i hlong
      have hrep : Repeats input s best'.2 best'.1 := by
        refine hb.resolve_left ?_
        rw [MINMATCH] at *
        omega
      have hmod : best'.2 % 2 ^ 16 = best'.2 := by
        have := hrep.reach
        rw [MAX_DISTANCE] at this
        omega
      have htakes : Takes input s (best'.1, best'.2) := ⟨hrep, by rw [LASTLITERALS] at *; simp only; omega⟩
      rw [if_pos (by rw [h.size]; omega), hmod]
      refine ⟨_, rfl, hl, by rw [List.length_set]; exact h.size, h.best.set htakes, ?_⟩
      intro p hp hend
      simp only at hp hend ⊢
      split at hp
      · rename_i hskip
        rw [if_pos hskip] at hend ⊢
        simp only at hp hend ⊢
        have htail := hrep.tail (j := p - s) (by omega)
        rw [show s + (p - s) = p by omega, show best'.1 - (p - s) = s + best'.1 - p by omega] at htail
        have htime := htakes.2
        simp only at htime
        exact ⟨htail, by simp only; omega⟩
      · rename_i hskip
        rw [if_neg hskip] at hend ⊢
        exact h.run p hp hend
    · exact ⟨_, rfl, hl, h.size, h.best, h.run⟩

lemma searchLoop_spec (hmax : input.length ≤ MAX_INPUT) (m : ℕ) :
    ∀ {s : ℕ} {f : Found}, f.Ok input base s → s + m + MFLIMIT ≤ input.length + 1 →
      ∃ f', (List.range' s m).foldlM (searchAt input e base (input.length - LASTLITERALS)) f
        = some f' ∧ f'.Ok input base (s + m) := by
  induction m with
  | zero =>
      intro s f h _
      exact ⟨f, rfl, h⟩
  | succ m ih =>
      intro s f h hm
      obtain ⟨f1, he, h1⟩ := searchAt_spec (e := e) hmax h (by omega)
      obtain ⟨f2, he2, h2⟩ := ih h1 (by omega)
      rw [List.range'_succ, List.foldlM_cons, he]
      refine ⟨f2, he2, ?_⟩
      rw [show s + (m + 1) = s + 1 + m by omega]
      exact h2

/-- **The search** finds a match or none at every position, over tables left by any groups. -/
lemma search_spec {enc : Encoder} (h : enc.Ok) (hmax : input.length ≤ MAX_INPUT)
    (hn : MFLIMIT ≤ input.length) :
    ∃ best enc', search enc input e = some (best, enc') ∧ best.length = input.length ∧
    BestOk input best ∧ enc'.Ok := by
  obtain ⟨hfresh, hbase⟩ := h.freshBase
  have hlim : LASTLITERALS ≤ input.length := by rw [MFLIMIT] at hn; rw [LASTLITERALS]; omega
  have h0 : Found.Ok input enc.freshBase.base 0
      ⟨enc.freshBase.head, List.replicate input.length 0, List.replicate input.length (0, 0),
      (0, 0, 0)⟩ := by
    refine ⟨hfresh.linked List.length_replicate, List.length_replicate, ?_, ?_⟩
    · intro i b hb
      rw [List.getElem?_replicate] at hb
      split at hb
      · rw [Option.some.injEq] at hb
        subst hb
        exact Or.inl (by decide)
      · simp at hb
    · intro p hp hend
      rw [MINMATCH] at hend
      simp only at hend
      omega
  obtain ⟨f, he, hf⟩ := searchLoop_spec (e := e) hmax (input.length - MFLIMIT + 1) h0 (by omega)
  rw [search]
  simp only [Option.bind_eq_bind, Option.bind_some, checkedSub_of_le hn, checkedSub_of_le hlim,
    List.range_eq_range', he]
  refine ⟨f.best, _, rfl, hf.size, hf.best, ChainsLinked.ok hf.linked ?_ (by omega)⟩
  rw [MFLIMIT] at *
  omega

end Search

/-! ## The shortest path -/

section Shortest

variable {input : Bytes} {e : Effort} {best : List (ℕ × ℕ)}

/-- Position `j` is reached: a match ends there, or the path begins there. -/
def Path.Reached (t : Path) (j : ℕ) : Prop := ∃ c, t.mCost[j]? = some c ∧ c < INF

/-- **What the path keeps**, with the positions before `i` visited: where a position is reached a
match ends there; the run of literals noted at a visited position began where one is reached; and so
does the end. -/
structure Path.Ok (input : Bytes) (i : ℕ) (t : Path) : Prop where
  costs : t.mCost.length = input.length + 1
  froms : t.mFrom.length = input.length + 1
  runs : t.pLit.length = input.length + 1
  zero : t.mCost[0]? = some 0
  hit : ∀ j, 0 < j → t.Reached j → ∃ m, t.mFrom[j]? = some m ∧ m.1 < i ∧
    Takes input m.1 (j - m.1, m.2)
  lits : ∀ s, s < i → ∃ lit, t.pLit[s]? = some lit ∧ lit ≤ s ∧ t.Reached (s - lit)
  stop : t.Reached t.stop
  run : 0 < i → t.pl < i ∧ t.pc ≤ 2 * i ∧ t.Reached (i - 1 - t.pl)

lemma litStep_le (k : ℕ) : litStep k ≤ 1 := by
  rw [litStep, ext, ext]
  split
  · omega
  · split
    · have : (k + 1 - 15) / 255 = 0 := by omega
      omega
    · omega

/-- A path's step at a position, before its match is offered. -/
lemma Path.arrive_spec (hmax : input.length ≤ MAX_INPUT) {i : ℕ} {t : Path} (h : t.Ok input i)
    (hi : i ≤ input.length) : ∃ t', t.arrive input.length i = some t' ∧ t'.Ok input (i + 1) := by
  rw [MAX_INPUT] at hmax
  obtain ⟨fresh, hf⟩ : ∃ fresh, t.mCost[i]? = some fresh :=
    ⟨_, List.getElem?_eq_getElem (by rw [h.costs]; omega)⟩
  -- the price inside a run is far below `INF`, so a position that begins one is reached
  have hkey : let carry := if i = 0 then INF else (t.pc + 1 + litStep t.pl) % 2 ^ 32
      (fresh ≤ carry → fresh < INF ∧ fresh ≤ 2 * (i + 1)) ∧
        (carry < fresh → 0 < i ∧ carry ≤ 2 * (i + 1)) := by
    simp only
    rcases Nat.eq_zero_or_pos i with h0 | hpos
    · subst h0
      rw [h.zero, Option.some.injEq] at hf
      subst hf
      rw [if_pos rfl]
      exact ⟨fun _ => ⟨by decide, by omega⟩, fun hc => absurd hc (by omega)⟩
    · obtain ⟨-, hpc, -⟩ := h.run hpos
      have hstep := litStep_le t.pl
      rw [if_neg (by omega), Nat.mod_eq_of_lt (by omega), INF]
      omega
  rw [Path.arrive, hf]
  simp only [Option.bind_eq_bind, Option.bind_some]
  simp only at hkey
  generalize (if i = 0 then INF else (t.pc + 1 + litStep t.pl) % 2 ^ 32) = carry at hkey ⊢
  rw [if_pos (by rw [h.runs]; omega)]
  refine ⟨_, rfl, h.costs, h.froms, by rw [List.length_set]; exact h.runs, h.zero, ?_, ?_, ?_, ?_⟩
  · intro j hj hr
    obtain ⟨m, hm, hlt, htakes⟩ := h.hit j hj hr
    exact ⟨m, hm, by omega, htakes⟩
  · intro s hs
    rcases Nat.lt_succ_iff_lt_or_eq.mp hs with hs | rfl
    · obtain ⟨lit, hl, hle, hr⟩ := h.lits s hs
      exact ⟨lit, by simp only; rw [List.getElem?_set_ne (by omega)]; exact hl, hle, hr⟩
    · simp only
      rw [List.getElem?_set_self (by rw [h.runs]; omega)]
      refine ⟨_, rfl, ?_⟩
      split
      · rename_i hle
        exact ⟨Nat.zero_le _, fresh, hf, (hkey.1 hle).1⟩
      · rename_i hgt
        obtain ⟨hpl, -, hr⟩ := h.run (hkey.2 (by omega)).1
        simp only
        refine ⟨by omega, ?_⟩
        rw [show s - (t.pl + 1) = s - 1 - t.pl by omega]
        exact hr
  · change t.Reached (if _ then i else t.stop)
    split
    · rename_i hends
      exact ⟨fresh, hf, hends.2.1⟩
    · exact h.stop
  · intro _
    simp only
    split
    · rename_i hle
      refine ⟨by simp only; omega, (hkey.1 hle).2, fresh, ?_, (hkey.1 hle).1⟩
      simp only [Nat.add_sub_cancel, Nat.sub_zero]
      exact hf
    · rename_i hgt
      obtain ⟨hpos, hcarry⟩ := hkey.2 (by omega)
      obtain ⟨hpl, -, hr⟩ := h.run hpos
      refine ⟨by simp only; omega, hcarry, ?_⟩
      simp only
      rw [show i + 1 - 1 - (t.pl + 1) = i - 1 - t.pl by omega]
      exact hr

/-- **A match offered** keeps the path: it only ever lowers a price. -/
lemma Path.offer_spec {i j c off : ℕ} {t : Path} (h : t.Ok input (i + 1))
    (hm : Takes input i (j - i, off)) :
    ∃ t', t.offer j c (i, off) = some t' ∧ t'.Ok input (i + 1) := by
  have hleast := hm.1.least
  have hend := hm.2
  rw [MINMATCH] at hleast
  simp only at hleast hend
  obtain ⟨old, hold⟩ : ∃ old, t.mCost[j]? = some old :=
    ⟨_, List.getElem?_eq_getElem (by rw [h.costs]; omega)⟩
  rw [Path.offer, hold]
  simp only [Option.bind_eq_bind, Option.bind_some]
  split
  · rename_i hlt
    rw [if_pos (by rw [h.froms]; omega)]
    have hkeep : ∀ k, t.Reached k →
        ({ t with mCost := t.mCost.set j c, mFrom := t.mFrom.set j (i, off) } : Path).Reached k := by
      rintro k ⟨x, hx, hxi⟩
      rcases eq_or_ne j k with rfl | hne
      · rw [hold, Option.some.injEq] at hx
        exact ⟨c, List.getElem?_set_self (by rw [h.costs]; omega), by omega⟩
      · exact ⟨x, by simp only; rw [List.getElem?_set_ne hne]; exact hx, hxi⟩
    refine ⟨_, rfl, by rw [List.length_set]; exact h.costs, by rw [List.length_set]; exact h.froms, h.runs, ?_, ?_, ?_,
      hkeep _ h.stop, ?_⟩
    · simp only
      rw [List.getElem?_set_ne (by omega)]
      exact h.zero
    · rintro k hk ⟨x, hx, hxi⟩
      rcases eq_or_ne j k with rfl | hne
      · exact ⟨(i, off), List.getElem?_set_self (by rw [h.froms]; omega), Nat.lt_succ_self i, hm⟩
      · simp only at hx ⊢
        rw [List.getElem?_set_ne hne] at hx ⊢
        exact h.hit k hk ⟨x, hx, hxi⟩
    · intro s hs
      obtain ⟨lit, hl, hle, hr⟩ := h.lits s hs
      exact ⟨lit, hl, hle, hkeep _ hr⟩
    · intro hpos
      obtain ⟨hpl, hpc, hr⟩ := h.run hpos
      exact ⟨hpl, hpc, hkeep _ hr⟩
  · exact ⟨t, rfl, h⟩

/-- A shorter match from the same place ends in time too. -/
lemma Takes.cut {i longest off : ℕ} (h : Takes input i (longest, off)) {j : ℕ}
    (hj : i + MINMATCH ≤ j) (hle : j ≤ i + longest) : Takes input i (j - i, off) := by
  have hend := h.2
  simp only at hend
  exact ⟨h.1.cut (by simp only; omega) (by simp only; omega), by simp only; omega⟩

lemma Path.offerCuts_spec {i longest off seq : ℕ} (hm : Takes input i (longest, off))
    (hbest : best.length = input.length) (js : List ℕ) :
    ∀ {t : Path}, t.Ok input (i + 1) → (∀ j ∈ js, i + MINMATCH ≤ j ∧ j ≤ i + longest) →
      ∃ t', t.offerCuts best i (i + longest) seq off js = some t' ∧ t'.Ok input (i + 1) := by
  have hend := hm.2
  simp only at hend
  induction js with
  | nil =>
      intro t h _
      exact ⟨t, rfl, h⟩
  | cons j js ih =>
      intro t h hjs
      obtain ⟨hlo, hhi⟩ := hjs j List.mem_cons_self
      have hrest := fun j' hj' => hjs j' (List.mem_cons_of_mem j hj')
      obtain ⟨b, hb⟩ : ∃ b, best[j]? = some b :=
        ⟨_, List.getElem?_eq_getElem (by rw [hbest, LASTLITERALS] at *; omega)⟩
      rw [Path.offerCuts, List.foldlM_cons, hb]
      simp only [Option.bind_eq_bind, Option.bind_some]
      split
      · obtain ⟨t1, he1, h1⟩ :=
          Path.offer_spec (c := (seq + ext (j - i - MINMATCH)) % 2 ^ 32) h (hm.cut hlo hhi)
        obtain ⟨t2, he2, h2⟩ := ih h1 hrest
        rw [he1]
        exact ⟨t2, he2, h2⟩
      · obtain ⟨t2, he2, h2⟩ := ih h hrest
        exact ⟨t2, he2, h2⟩

/-- **One position visited.** -/
lemma Path.visit_spec (hmax : input.length ≤ MAX_INPUT) (hn : MFLIMIT ≤ input.length)
    (hbest : best.length = input.length) (hok : BestOk input best) {i : ℕ} {t : Path}
    (h : t.Ok input i) (hi : i ≤ input.length) :
    ∃ t', Path.visit input.length (input.length - MFLIMIT) e best t i = some t' ∧
    t'.Ok input (i + 1) := by
  rw [MFLIMIT] at hn
  obtain ⟨t1, he1, h1⟩ := Path.arrive_spec hmax h hi
  rw [Path.visit, he1]
  simp only [Option.bind_eq_bind, Option.bind_some]
  split
  · exact ⟨t1, rfl, h1⟩
  rename_i hlast
  rw [MFLIMIT] at hlast
  obtain ⟨b, hb⟩ : ∃ b, best[i]? = some b := ⟨_, List.getElem?_eq_getElem (by rw [hbest]; omega)⟩
  obtain ⟨longest, off⟩ := b
  rw [hb]
  simp only [Option.bind_some]
  split
  · exact ⟨t1, rfl, h1⟩
  rename_i hlong
  split
  · exact ⟨t1, rfl, h1⟩
  have htakes : Takes input i (longest, off) := (hok i _ hb).resolve_left hlong
  obtain ⟨t2, he2, h2⟩ :=
    Path.offer_spec (j := i + longest)
      (c := ((t1.pc + 3 + e.seqCost) % 2 ^ 32 + ext (longest - MINMATCH)) % 2 ^ 32) h1
      (htakes.cut (by omega) (le_refl _))
  rw [he2, Option.bind_some]
  refine Path.offerCuts_spec htakes hbest _ h2 ?_
  intro j hj
  rw [List.mem_range'_1] at hj
  omega

lemma Path.visits_spec (hmax : input.length ≤ MAX_INPUT) (hn : MFLIMIT ≤ input.length)
    (hbest : best.length = input.length) (hok : BestOk input best) (m : ℕ) :
    ∀ {i : ℕ} {t : Path}, t.Ok input i → i + m ≤ input.length + 1 →
      ∃ t', (List.range' i m).foldlM (Path.visit input.length (input.length - MFLIMIT) e best) t
        = some t' ∧ t'.Ok input (i + m) := by
  induction m with
  | zero =>
      intro i t h _
      exact ⟨t, rfl, h⟩
  | succ m ih =>
      intro i t h hm
      obtain ⟨t1, he1, h1⟩ := Path.visit_spec (e := e) hmax hn hbest hok h (by omega)
      obtain ⟨t2, he2, h2⟩ := ih h1 (by omega)
      rw [List.range'_succ, List.foldlM_cons, he1]
      refine ⟨t2, he2, ?_⟩
      rw [show i + (m + 1) = i + 1 + m by omega]
      exact h2

/-- **The way back** chains: from a position reached to the beginning, by the matches that end at
the positions reached and the runs before them. -/
lemma backFrom_spec {t : Path} (h : t.Ok input (input.length + 1)) (fuel : ℕ) :
    ∀ {e2 : ℕ} {seqs : List Seq}, t.Reached e2 → e2 ≤ fuel → Chains input e2 seqs.reverse →
      ∃ seqs', backFrom t.mFrom t.pLit fuel e2 seqs = some seqs' ∧
      Chains input 0 seqs'.reverse := by
  induction fuel with
  | zero =>
      intro e2 seqs hr hle hch
      have h0 : e2 = 0 := by omega
      subst h0
      rw [backFrom, if_neg (Nat.lt_irrefl 0)]
      exact ⟨seqs, rfl, hch⟩
  | succ fuel ih =>
      intro e2 seqs hr hle hch
      rw [backFrom]
      split
      · rename_i hpos
        obtain ⟨⟨s, off⟩, hm, -, htakes⟩ := h.hit e2 hpos hr
        have hend := htakes.2
        have hleast := htakes.1.least
        rw [MINMATCH] at hleast
        simp only at hend hleast htakes
        obtain ⟨lit, hl, hlit, hr'⟩ := h.lits s (by omega)
        rw [hm]
        simp only [Option.bind_eq_bind, Option.bind_some]
        rw [hl, Option.bind_some, checkedSub_of_le hlit, Option.bind_some,
          checkedSub_of_le (by omega), Option.bind_some]
        refine ih hr' (by omega) ?_
        rw [List.reverse_append, List.reverse_singleton, List.singleton_append]
        refine ⟨rfl, ?_, ?_⟩
        · simp only
          rw [Nat.sub_add_cancel hlit]
          exact htakes.1
        · simp only
          rw [Nat.sub_add_cancel hlit, show s + (e2 - s) = e2 by omega]
          exact hch
      · rename_i hz
        have h0 : e2 = 0 := by omega
        subst h0
        exact ⟨seqs, rfl, hch⟩

/-- **The shortest path chains.** -/
lemma shortest_spec (hmax : input.length ≤ MAX_INPUT) (hn : MFLIMIT ≤ input.length)
    (hbest : best.length = input.length) (hok : BestOk input best) :
    ∃ seqs, shortest input e best = some seqs ∧ Chains input 0 seqs.reverse := by
  set t0 : Path :=
    ⟨(List.replicate (input.length + 1) INF).set 0 0, List.replicate (input.length + 1) (0, 0),
    List.replicate (input.length + 1) 0, 0, litRun input.length, INF, 0⟩ with ht0
  have hzero : t0.mCost[0]? = some 0 := by
    rw [ht0]
    exact List.getElem?_set_self (by rw [List.length_replicate]; omega)
  have h0 : t0.Ok input 0 := by
    refine ⟨by rw [ht0, List.length_set,
      List.length_replicate], List.length_replicate, List.length_replicate, hzero,
      ?_, fun s hs => absurd hs (Nat.not_lt_zero s), ⟨0, hzero, by decide⟩,
      fun hc => absurd hc (Nat.lt_irrefl 0)⟩
    rintro j hj ⟨c, hc, hlt⟩
    rw [ht0] at hc
    simp only at hc
    rw [List.getElem?_set_ne (by omega), List.getElem?_replicate] at hc
    split at hc
    · rw [Option.some.injEq] at hc
      omega
    · simp at hc
  obtain ⟨t, he, h⟩ := Path.visits_spec (e := e) hmax hn hbest hok (input.length + 1) h0 (by omega)
  rw [Nat.zero_add] at h
  have hstop : t.stop ≤ input.length := by
    obtain ⟨c, hc, -⟩ := h.stop
    have := (List.getElem?_eq_some_iff.mp hc).1
    rw [h.costs] at this
    omega
  have hend : Chains input t.stop [] := hstop
  obtain ⟨seqs, hb, hch⟩ := @backFrom_spec _ _ h (input.length + 1) _ [] h.stop (by omega) hend
  rw [shortest]
  simp only [Option.bind_eq_bind, Option.bind_some, checkedSub_of_le hn,
    List.range_eq_range', ← ht0, he, hb]
  exact ⟨seqs, rfl, hch⟩

end Shortest

end Supdb

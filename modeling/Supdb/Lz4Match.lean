import Mathlib.Data.LawfulXor.Basic
import Supdb.Lz4Emit

/-!
# The matches a search finds

A search looks at positions named by the hash chains and compares the bytes.  Nothing it takes from
the tables has to be right but this: a head names a position before the one searched, and a link
leads further back.

* `common_spec` – the length two places agree for, eight bytes a compare.
* **`ChainsLinked`** – the tables with every position before `ins` in its chain; `insertAt_linked`
  keeps it.
* **`walk_spec`** – a walk over such tables indexes nothing outside and comes back with a match or
  with none.
* `longestAt_spec` – the same of a search at a position no earlier than those joined.
-/

namespace Supdb

open StorageLib

/-! ## The length two places agree for -/

lemma two_pow_trailingZeros_dvd (w : ℕ) : ∀ x, 2 ^ trailingZeros w x ∣ x := by
  induction w with
  | zero => intro x; rw [trailingZeros, pow_zero]; exact one_dvd x
  | succ w ih =>
      intro x
      rw [trailingZeros]
      split
      · rw [pow_zero]
        exact one_dvd x
      · have hx : x = 2 * (x / 2) := by omega
        rw [pow_succ', hx, Nat.mul_div_cancel_left _ (by omega)]
        exact Nat.mul_dvd_mul_left 2 (ih (x / 2))

lemma trailingZeros_double (w x : ℕ) : trailingZeros (w + 1) (2 * x) = trailingZeros w x + 1 := by
  rw [trailingZeros, if_neg (by omega), Nat.mul_div_cancel_left _ (by omega)]

lemma trailingZeros_byte (w x : ℕ) : trailingZeros (w + 8) (256 * x) = trailingZeros w x + 8 := by
  have h : 256 * x = 2 * (2 * (2 * (2 * (2 * (2 * (2 * (2 * x))))))) := by omega
  rw [h]
  simp only [trailingZeros_double]

lemma xor_bytes {b c B C : ℕ} (hb : b < 256) (hc : c < 256) :
    (b + 256 * B) ^^^ (c + 256 * C) = (b ^^^ c) + 256 * (B ^^^ C) := by
  have hmod : ((b + 256 * B) ^^^ (c + 256 * C)) % 2 ^ 8 = b ^^^ c := by
    rw [Nat.xor_mod_two_pow, show (b + 256 * B) % 2 ^ 8
      = b by omega, show (c + 256 * C) % 2 ^ 8 = c by omega]
  have hdiv : ((b + 256 * B) ^^^ (c + 256 * C)) / 2 ^ 8 = B ^^^ C := by
    rw [Nat.xor_div_two_pow, show (b + 256 * B) / 2 ^ 8
      = B by omega, show (c + 256 * C) / 2 ^ 8 = C by omega]
  omega

/-- **The first bit two words differ in is in the first byte they differ in.** -/
lemma trailingZeros_words {w : ℕ} {xs : Bytes} :
    ∀ {ys : Bytes}, xs.length = ys.length → 8 * xs.length ≤ w → leNat xs ^^^ leNat ys ≠ 0 →
      trailingZeros w (leNat xs ^^^ leNat ys) / 8 < xs.length
        ∧ ∀ i, i < trailingZeros w (leNat xs ^^^ leNat ys) / 8 → xs[i]? = ys[i]? := by
  induction xs generalizing w with
  | nil =>
      intro ys hlen _ hne
      have hys : ys = [] := List.length_eq_zero_iff.mp hlen.symm
      subst hys
      exact absurd (Nat.xor_self _) hne
  | cons b bs ih =>
      intro ys hlen hw hne
      cases ys with
      | nil => simp at hlen
      | cons c cs =>
          rw [List.length_cons] at hw
          obtain ⟨w, rfl⟩ : ∃ w', w = w' + 8 := ⟨w - 8, by omega⟩
          have hx : leNat (b :: bs) ^^^ leNat (c :: cs) = (b.toNat ^^^ c.toNat) + 256 * (leNat bs ^^^ leNat cs) :=
            xor_bytes b.toNat_lt c.toNat_lt
          rw [hx] at hne ⊢
          rcases eq_or_ne b c with hbc | hbc
          · subst hbc
            rw [Nat.xor_self, Nat.zero_add] at hne ⊢
            obtain ⟨hlt, hall⟩ := ih (w := w) (by simpa using hlen) (by omega) (by omega)
            rw [trailingZeros_byte, Nat.add_div_right _ (by omega)]
            refine ⟨by rw [List.length_cons]; omega, ?_⟩
            intro i hi
            cases i with
            | zero => rfl
            | succ i => exact hall i (by omega)
          · -- the low byte is not zero, so no more than seven zeros stand in front
            have hlow : b.toNat ^^^ c.toNat ≠ 0 := by
              rw [Ne, xor_eq_zero_iff]
              exact fun h => hbc (UInt8.toNat_inj.mp h)
            have hlow' : b.toNat ^^^ c.toNat < 2 ^ 8 := Nat.xor_lt_two_pow b.toNat_lt c.toNat_lt
            set x := (b.toNat ^^^ c.toNat) + 256 * (leNat bs ^^^ leNat cs) with hxdef
            have hlt : trailingZeros (w + 8) x < 8 := by
              by_contra hge
              have hd : 2 ^ 8 ∣ x := (pow_dvd_pow 2 (Nat.not_lt.mp hge)).trans (two_pow_trailingZeros_dvd _ _)
              omega
            rw [Nat.div_eq_of_lt hlt]
            exact ⟨by rw [List.length_cons]; omega, fun i hi => absurd hi (Nat.not_lt_zero i)⟩

section Common

variable {b : Bytes} {a s max : ℕ}

/-- What is known of a length two places agree for. -/
def Agrees (b : Bytes) (a s l : ℕ) : Prop := ∀ i, i < l → b[a + i]? = b[s + i]?

lemma commonBytes_spec (ha : a + max ≤ b.length) (hs : s + max ≤ b.length) {l : ℕ} (hl : l ≤ max)
    (h : Agrees b a s l) :
    ∃ l', commonBytes b a s max l = some l' ∧ l' ≤ max ∧ Agrees b a s l' := by
  induction hk : max - l using Nat.strong_induction_on generalizing l with
  | _ k ih =>
      rw [commonBytes]
      split
      · rename_i hlt
        have hga : b[a + l]? = some b[a + l] := List.getElem?_eq_getElem (by omega)
        have hgs : b[s + l]? = some b[s + l] := List.getElem?_eq_getElem (by omega)
        rw [hga, hgs]
        simp only [Option.bind_eq_bind, Option.bind_some]
        split
        · rename_i heq
          refine ih (max - (l + 1)) (by omega) hlt ?_ rfl
          intro i hi
          rcases Nat.lt_succ_iff_lt_or_eq.mp hi with hi | rfl
          · exact h i hi
          · rw [hga, hgs, heq]
        · exact ⟨l, rfl, hl, h⟩
      · exact ⟨l, rfl, hl, h⟩

lemma commonFrom_spec (ha : a + max ≤ b.length) (hs : s + max ≤ b.length) {l : ℕ} (hl : l ≤ max)
    (h : Agrees b a s l) : ∃ l', commonFrom b a s max l = some l' ∧ l' ≤ max ∧ Agrees b a s l' := by
  induction hk : max - l using Nat.strong_induction_on generalizing l with
  | _ k ih =>
      rw [commonFrom]
      split
      · rename_i hle
        have hra : readWord 8 b (a + l) = some (leNat (slice b (a + l) (a + l + 8))) := by
          rw [readWord, getRange, if_pos ⟨by omega, by omega⟩, Option.map_some]
        have hrs : readWord 8 b (s + l) = some (leNat (slice b (s + l) (s + l + 8))) := by
          rw [readWord, getRange, if_pos ⟨by omega, by omega⟩, Option.map_some]
        have hla : (slice b (a + l) (a + l + 8)).length = 8 := by rw [length_slice_of_le (by omega)]; omega
        have hls : (slice b (s + l) (s + l + 8)).length = 8 := by rw [length_slice_of_le (by omega)]; omega
        rw [hra, hrs]
        simp only [Option.bind_eq_bind, Option.bind_some]
        split
        · rename_i hne
          obtain ⟨hlt, hall⟩ := trailingZeros_words (w := 64) (hla.trans hls.symm) (by omega) hne
          refine ⟨_, rfl, by omega, ?_⟩
          intro i hi
          rcases Nat.lt_or_ge i l with hil | hil
          · exact h i hil
          · have := hall (i - l) (by omega)
            rw [getElem?_slice (by omega), getElem?_slice (by omega)] at this
            rw [show a + i = a + l + (i - l) by omega, show s + i = s + l + (i - l) by omega]
            exact this
        · rename_i heq
          rw [not_not, xor_eq_zero_iff] at heq
          have hsl : slice b (a + l) (a + l + 8) = slice b (s + l) (s + l + 8) := by
            rw [← leBytes_leNat (slice b (a + l) (a + l + 8)), ← leBytes_leNat
              (slice b (s + l) (s + l + 8)), hla, hls, heq]
          refine ih (max - (l + 8)) (by omega) hle ?_ rfl
          intro i hi
          rcases Nat.lt_or_ge i l with hil | hil
          · exact h i hil
          · have hget := congrArg (fun x => x[i - l]?) hsl
            rw [getElem?_slice (by omega), getElem?_slice (by omega)] at hget
            rw [show a + i = a + l + (i - l) by omega, show s + i = s + l + (i - l) by omega]
            exact hget
      · exact commonBytes_spec ha hs hl h

/-- **`common`** indexes nothing outside, and the bytes it counts agree. -/
lemma common_spec (ha : a + max ≤ b.length) (hs : s + max ≤ b.length) :
    ∃ l, common b a s max = some l ∧ l ≤ max ∧ Agrees b a s l :=
  commonFrom_spec ha hs (Nat.zero_le max) (fun i hi => absurd hi (Nat.not_lt_zero i))

end Common

/-! ## The tables -/

lemma hash_lt (v : ℕ) : hash v < 2 ^ HASH_LOG := by
  rw [hash, HASH_LOG]
  have := Nat.mod_lt (v * 2654435761) (show 0 < 2 ^ 32 by omega)
  omega

/-- The tables of a group of `n` bytes with every position before `ins` in its chain: a head over
the base names one of these, and the links of these lead no further back than the group goes. -/
structure ChainsLinked (base n ins : ℕ) (head chain : List ℕ) : Prop where
  heads : head.length = 2 ^ HASH_LOG
  le : ∀ x ∈ head, x ≤ base + ins
  size : chain.length = n
  links : ∀ q, q < ins → ∃ c, chain[q]? = some c ∧ c ≤ q

section Tables

variable {base n ins : ℕ} {head chain : List ℕ}

lemma ChainsLinked.head_le (h : ChainsLinked base n ins head chain) {i x : ℕ}
    (hx : head[i]? = some x) : x ≤ base + ins :=
  h.le x (List.mem_of_getElem? hx)

lemma ChainsLinked.get_head (h : ChainsLinked base n ins head chain) (v : ℕ) :
    ∃ x, head[hash v]? = some x :=
  ⟨_, List.getElem?_eq_getElem (by rw [h.heads]; exact hash_lt v)⟩

/-- **The next position joins its chain.** -/
lemma insertAt_linked (h : ChainsLinked base n ins head chain) (hins : ins < n) (v : ℕ) :
    ∃ head' chain', insertAt head chain ins (hash v) base = some (head', chain')
      ∧ ChainsLinked base n (ins + 1) head' chain' := by
  obtain ⟨prev, hprev⟩ := h.get_head v
  have hle := h.head_le hprev
  have hkeep : ∀ d, d ≤ ins →
      ChainsLinked base n (ins + 1) (head.set (hash v) (base + ins + 1))
      (chain.set ins (d % 2 ^ 16)) := by
    intro d hd
    constructor
    · rw [List.length_set]
      exact h.heads
    · intro x hx
      rcases List.mem_or_eq_of_mem_set hx with hx | rfl
      · have := h.le x hx
        omega
      · omega
    · rw [List.length_set]
      exact h.size
    · intro q hq
      rcases Nat.lt_succ_iff_lt_or_eq.mp hq with hq | rfl
      · rw [List.getElem?_set_ne (by omega)]
        exact h.links q hq
      · rw [List.getElem?_set_self (by rw [h.size]; exact hins)]
        exact ⟨_, rfl, (Nat.mod_le _ _).trans hd⟩
  obtain ⟨d, hd, hdle⟩ : ∃ d, linkBack base prev ins = some d ∧ d ≤ ins := by
    rw [linkBack]
    split
    · rw [checkedSub_of_le (by omega)]
      exact ⟨_, rfl, by omega⟩
    · exact ⟨0, rfl, Nat.zero_le _⟩
  rw [insertAt, hprev]
  simp only [Option.bind_eq_bind, Option.bind_some, hd]
  rw [if_pos (by rw [h.size]; exact hins)]
  exact ⟨_, _, rfl, hkeep d hdle⟩

end Tables

/-! ## Walks -/

/-- What a search at `p` has so far: no match, or one of `best.1` bytes from `best.2` back. -/
def Best (input : Bytes) (p : ℕ) (best : ℕ × ℕ) : Prop := best.1 = MINMATCH - 1 ∨
    Repeats input p best.2 best.1

section Walk

variable {input : Bytes} {p v maxLen base n ins : ℕ} {head chain : List ℕ}

/-- **One candidate.**  A position before `p` is compared inside the input, and is a match where it
is taken. -/
lemma tryCandidate_spec {q : ℕ} {best : ℕ × ℕ} (hq : q < p) (hp : p < MAX_INPUT)
    (hin : p + maxLen ≤ input.length) (hbest : Best input p best) (hroom : best.1 < maxLen)
    (hfour : p + 4 ≤ input.length) :
    ∃ best' last, tryCandidate input q p v maxLen best = some (best', last) ∧ Best input p best'
      ∧ best'.1 ≤ maxLen ∧ (last = false → best'.1 < maxLen) := by
  have hx : input[q + best.1]? = some input[q + best.1] := List.getElem?_eq_getElem (by omega)
  have hy : input[p + best.1]? = some input[p + best.1] := List.getElem?_eq_getElem (by omega)
  have hsame : ∃ best' last, some (best, false) = some (best', last) ∧ Best input p best'
      ∧ best'.1 ≤ maxLen ∧ (last = false → best'.1 < maxLen) :=
    ⟨best, false, rfl, hbest, by omega, fun _ => hroom⟩
  rw [tryCandidate, hx, hy]
  simp only [Option.bind_eq_bind, Option.bind_some]
  split
  · have hw : readWord 4 input q = some (leNat (slice input q (q + 4))) := by
      rw [readWord, getRange, if_pos ⟨by omega, by omega⟩, Option.map_some]
    rw [hw, Option.bind_some]
    split
    · obtain ⟨l, hl, hle, hag⟩ := common_spec (b := input) (a := q) (s := p) (by omega) hin
      rw [hl, Option.bind_some]
      split
      · rename_i hlong
        rw [checkedSub_of_le hq.le, Option.bind_some]
        refine ⟨_, _, rfl, ?_, hle, ?_⟩
        · have hleast : MINMATCH ≤ l := by
            rcases hbest with hb | hb
            · rw [hb] at hlong
              omega
            · have := hb.least
              omega
          refine Or.inr ⟨by simp only; omega, by simp only; omega, ?_, hleast, by simp only; omega, ?_⟩
          · rw [MAX_INPUT] at hp
            rw [MAX_DISTANCE]
            simp only
            omega
          · intro i hi
            simp only
            rw [← hag i hi]
            congr 1
            omega
        · intro hlast
          rw [decide_eq_false_iff_not] at hlast
          simp only
          omega
      · exact hsame
    · exact hsame
  · exact hsame

/-- **A walk** over the chains comes back with a match or with none. -/
lemma walk_spec (window : Bool) (h : ChainsLinked base n ins head chain) (hins : ins ≤ p)
    (hp : p < MAX_INPUT) (hin : p + maxLen ≤ input.length) (hfour : p + 4 ≤ input.length)
    (tries : ℕ) :
    ∀ {cand : ℕ} {best : ℕ × ℕ}, cand ≤ base + ins → Best input p best → best.1 < maxLen →
      ∃ best', walk window input p v maxLen base chain tries cand best = some best' ∧
        Best input p best' ∧ best'.1 ≤ maxLen := by
  induction tries with
  | zero =>
      intro cand best hcand hbest hroom
      exact ⟨best, rfl, hbest, by omega⟩
  | succ tries ih =>
      intro cand best hcand hbest hroom
      rw [walk]
      split
      · rename_i hlt
        simp only
        obtain ⟨far, hfar⟩ : ∃ far, tooFar window p (cand - base - 1) = some far := by
          cases window with
          | true => exact ⟨_, by rw [tooFar, if_pos rfl, checkedSub_of_le (by omega), Option.map_some]⟩
          | false => exact ⟨false, rfl⟩
        rw [hfar]
        simp only [Option.bind_eq_bind, Option.bind_some]
        split
        · exact ⟨best, rfl, hbest, by omega⟩
        obtain ⟨best', last, he, hb', hle', hroom'⟩ :=
          tryCandidate_spec (v := v) (q := cand - base - 1) (by omega) hp hin hbest hroom hfour
        rw [he]
        simp only [Option.bind_some]
        split
        · exact ⟨best', rfl, hb', hle'⟩
        rename_i hlast
        obtain ⟨c, hc, hcle⟩ := h.links (cand - base - 1) (by omega)
        rw [hc, Option.bind_some]
        split
        · exact ⟨best', rfl, hb', hle'⟩
        · rw [checkedSub_of_le (by omega), Option.bind_some]
          exact ih (by omega) hb' (hroom' (by simpa using hlast))
      · exact ⟨best, rfl, hbest, by omega⟩

end Walk

/-! ## A search of the lazy parse -/

section Search

variable {input : Bytes} {base : ℕ}

/-- The tables of the lazy parse, linked up to what they say. -/
def Tables.ChainsLinked (base n : ℕ) (t : Tables) : Prop :=
  Supdb.ChainsLinked base n t.ins t.head t.chain

lemma readWord_four {p : ℕ} (h : p + 4 ≤ input.length) : ∃ v, readWord 4 input p = some v :=
  ⟨_, by rw [readWord, getRange, if_pos ⟨by omega, h⟩, Option.map_some]⟩

/-- The loop that joins positions, over the positions it joins. -/
lemma joinLoop_spec {n : ℕ} (m : ℕ) :
    ∀ {ins : ℕ} {head chain : List ℕ}, Supdb.ChainsLinked base n ins head chain → ins + m ≤ n →
      ins + m + 3 ≤ input.length → ∃ head' chain', (List.range' ins m).foldlM
          (fun (hc : List ℕ × List ℕ) s => do
            let v ← readWord 4 input s
            insertAt hc.1 hc.2 s (hash v) base) (head, chain) = some (head', chain')
        ∧ Supdb.ChainsLinked base n (ins + m) head' chain' := by
  induction m with
  | zero =>
      intro ins head chain h _ _
      exact ⟨head, chain, rfl, h⟩
  | succ m ih =>
      intro ins head chain h hn hin
      obtain ⟨v, hv⟩ := @readWord_four input ins (by omega)
      obtain ⟨head1, chain1, he, h1⟩ := insertAt_linked h (by omega) v
      obtain ⟨head2, chain2, he2, h2⟩ := ih h1 (by omega) (by omega)
      rw [List.range'_succ, List.foldlM_cons, hv]
      simp only [Option.bind_eq_bind, Option.bind_some, he]
      refine ⟨head2, chain2, he2, ?_⟩
      rw [show ins + (m + 1) = ins + 1 + m by omega]
      exact h2

lemma joinUpTo_spec {p : ℕ} {t : Tables} (h : t.ChainsLinked base input.length) (hins : t.ins ≤ p)
    (hp : p + 3 ≤ input.length) :
    ∃ t', joinUpTo input base p t = some t' ∧ t'.ins = p ∧ t'.ChainsLinked base input.length := by
  obtain ⟨head, chain, he, hl⟩ := @joinLoop_spec input _ _ (p - t.ins) _ _ _ h (by omega) (by omega)
  rw [show t.ins + (p - t.ins) = p by omega] at hl
  rw [joinUpTo, he]
  refine ⟨⟨head, chain, max t.ins p⟩, rfl, Nat.max_eq_right hins, ?_⟩
  rw [Tables.ChainsLinked]
  simp only [Nat.max_eq_right hins]
  exact hl

/-- **A search at a position no earlier than those joined** comes back with a match that ends in
time, or with none, and with every position before it joined. -/
lemma longestAt_spec {p attempts : ℕ} {t : Tables} (h : t.ChainsLinked base input.length)
    (hins : t.ins ≤ p) (hp : p + MFLIMIT ≤ input.length) (hmax : input.length ≤ MAX_INPUT) :
    ∃ best t', longestAt input p (input.length - LASTLITERALS) attempts base t = some (best, t')
      ∧ Best input p best ∧ p + best.1 + LASTLITERALS ≤ input.length ∧ t'.ins = p ∧
      t'.ChainsLinked base input.length := by
  rw [MFLIMIT] at hp
  obtain ⟨t', he, hi, hl⟩ := joinUpTo_spec h hins (by omega)
  obtain ⟨v, hv⟩ := @readWord_four input p (by omega)
  obtain ⟨cand, hc⟩ := ChainsLinked.get_head hl v
  have hcand := ChainsLinked.head_le hl hc
  rw [hi] at hcand
  have hlim : p ≤ input.length - LASTLITERALS := by rw [LASTLITERALS]; omega
  obtain ⟨best, hw, hb, hle⟩ :=
    @walk_spec _ _ v _ _ _ _ _ _ false hl hi.le (by omega) (show p + (input.length - LASTLITERALS - p) ≤
        input.length by omega) (by omega) attempts _ ((MINMATCH - 1, 0)) (hi ▸ hcand) (Or.inl rfl)
        (by simp only [MINMATCH, LASTLITERALS]; omega)
  rw [longestAt, he]
  simp only [Option.bind_eq_bind, Option.bind_some, hv, checkedSub_of_le hlim, hc, hw]
  refine ⟨best, t', rfl, hb, ?_, hi, hl⟩
  rw [LASTLITERALS] at *
  omega

end Search

end Supdb

import Supdb.Lib.Bytes

/-!
# Copies inside a buffer that is being filled

A decoder of back references fills a buffer from its start.  What it has written so far is a prefix
of the buffer; behind it is whatever the buffer held, and what a wide copy wrote past its own end.

* `extendBack out off n` – what a back reference means: `n` elements more, each the one `off` back.
* `copyWithin`, `copyNonoverlapping`, `copyFrom` – the moves a program has, each `none` where a
  position it forms is outside its buffer, and the second also where its source reaches into its
  destination.
* `extendBack_add` – **a reference may be copied in moves of any width from any whole number of its
  periods back**, as long as what a move reads is already written.
* `stride` – a loop of moves of one width, which may write past what it was asked for; `stride_spec`
  is its invariant rule.
-/

namespace StorageLib

variable {α : Type}

/-! ## Back references -/

/-- `n` elements more, each the one `off` back. -/
def extendBack (out : List α) (off : ℕ) : ℕ → List α
  | 0 => out
  | n + 1 =>
      let o := extendBack out off n
      o ++ (o[o.length - off]?).toList

section ExtendBack

variable {out : List α} {off : ℕ}

lemma length_extendBack (hpos : 0 < off) (hoff : off ≤ out.length) (n : ℕ) :
    (extendBack out off n).length = out.length + n := by
  induction n with
  | zero => rfl
  | succ n ih =>
      have hlt : (extendBack out off n).length - off < (extendBack out off n).length := by omega
      rw [extendBack, List.length_append, List.getElem?_eq_getElem hlt, Option.toList_some, List.length_singleton]
      omega

lemma prefix_extendBack_succ (n : ℕ) : extendBack out off n <+: extendBack out off (n + 1) :=
  List.prefix_append _ _

lemma prefix_extendBack {n m : ℕ} (h : n ≤ m) : extendBack out off n <+: extendBack out off m := by
  induction m, h using Nat.le_induction with
  | base => exact List.prefix_rfl
  | succ m _ ih => exact ih.trans (prefix_extendBack_succ m)

/-- Reading one period back changes nothing, from the first element the reference reads on. -/
lemma getElem?_extendBack_period (hpos : 0 < off) (hoff : off ≤ out.length) {n p : ℕ}
    (hp : out.length ≤ p + off) (hlt : p + off < out.length + n) :
    (extendBack out off n)[p + off]? = (extendBack out off n)[p]? := by
  induction n with
  | zero => omega
  | succ n ih =>
      have hlen := length_extendBack hpos hoff n
      rw [extendBack]
      rcases Nat.lt_or_ge (p + off) (out.length + n) with hin | hlast
      · rw [List.getElem?_append_left (by omega), List.getElem?_append_left (by omega)]
        exact ih hin
      · have hp' : (extendBack out off n).length - off = p := by omega
        rw [List.getElem?_append_right (by omega), List.getElem?_append_left (by omega), hp',
          show p + off - (extendBack out off n).length = 0 by omega]
        cases (extendBack out off n)[p]? with
        | none => rfl
        | some x => rfl

lemma getElem?_extendBack_periods (hpos : 0 < off) (hoff : off ≤ out.length) {n p : ℕ} (m : ℕ)
    (hp : out.length ≤ p + off) (hlt : p + off * m < out.length + n) :
    (extendBack out off n)[p + off * m]? = (extendBack out off n)[p]? := by
  induction m with
  | zero => rfl
  | succ m ih =>
      rw [Nat.mul_succ, ← Nat.add_assoc] at hlt ⊢
      rw [getElem?_extendBack_period hpos hoff (by omega) hlt]
      exact ih (by omega)

lemma slice_succ {l : List α} {a b : ℕ} (hab : a ≤ b) :
    slice l a (b + 1) = slice l a b ++ (l[b]?).toList := by
  rw [← slice_append_slice l hab (Nat.le_succ b)]
  congr 1
  rw [slice, List.take_add_one]
  rcases Nat.lt_or_ge b l.length with hb | hb
  · rw [List.drop_append_of_le_length (by rw [List.length_take]; omega),
      List.drop_eq_nil_of_le (by rw [List.length_take]; omega), List.nil_append]
  · rw [List.getElem?_eq_none hb, Option.toList_none, List.append_nil,
      List.drop_eq_nil_of_le (by rw [List.length_take]; omega)]

/-- **A reference may be copied in moves.**  A move of `w` elements from `step` back, a whole number
of periods, continues the reference where all it reads is written: `w ≤ step`, and no further back
than one period before the reference began. -/
lemma extendBack_add (hpos : 0 < off) (hoff : off ≤ out.length) {k w step : ℕ} (hd : off ∣ step)
    (hw : w ≤ step) (hs : step ≤ k + off) :
    extendBack out off (k + w)
      = extendBack out off k
        ++ slice (extendBack out off k) (out.length + k - step) (out.length + k - step + w) := by
  induction w with
  | zero => simp
  | succ w ih =>
      have hlen := length_extendBack hpos hoff (k + w)
      obtain ⟨m, rfl⟩ := hd
      obtain ⟨m, rfl⟩ : ∃ m', m = m' + 1 := by
        cases m with
        | zero => omega
        | succ m => exact ⟨m, rfl⟩
      rw [Nat.mul_succ] at hw hs ⊢
      -- the element one period back is the one the move reads, `m` periods further back
      have hread : (extendBack out off (k + w))[(extendBack out off (k + w)).length - off]?
          = (extendBack out off k)[out.length + k - (off * m + off) + w]? := by
        have hp : (extendBack out off (k + w)).length - off
            = (out.length + k - (off * m + off) + w) + off * m := by omega
        rw [hp, getElem?_extendBack_periods hpos hoff m (by omega) (by omega)]
        obtain ⟨t, ht⟩ : extendBack out off k <+: extendBack out off (k + w) := prefix_extendBack (Nat.le_add_right k w)
        have hk := length_extendBack hpos hoff k
        rw [← ht, List.getElem?_append_left (by omega)]
      rw [← Nat.add_assoc, extendBack, hread, ← Nat.add_assoc, slice_succ (Nat.le_add_right _ _),
        ← List.append_assoc]
      congr 1
      have hw' := ih (by rw [Nat.mul_succ]; omega)
      rw [Nat.mul_succ] at hw'
      exact hw'

end ExtendBack

/-! ## Moves -/

/-- `x` over the elements of `dst` from `d`. -/
def overwrite (dst : List α) (d : ℕ) (x : List α) : List α :=
  dst.take d ++ x ++ dst.drop (d + x.length)

/-- `n` elements of `dst` from `s` to `d`, read before any is written. -/
def copyWithin (dst : List α) (s d n : ℕ) : Option (List α) :=
  if s + n ≤ dst.length ∧
    d + n ≤ dst.length then some (overwrite dst d (slice dst s (s + n))) else none

/-- `n` elements of `dst` from `s` to `d`, where the source ends before the destination. -/
def copyNonoverlapping (dst : List α) (s d n : ℕ) : Option (List α) :=
  if s + n ≤ d ∧ d + n ≤ dst.length then some (overwrite dst d (slice dst s (s + n))) else none

/-- `n` elements of `src` from `s` to `d` in `dst`. -/
def copyFrom (src dst : List α) (s d n : ℕ) : Option (List α) :=
  if s + n ≤ src.length ∧
    d + n ≤ dst.length then some (overwrite dst d (slice src s (s + n))) else none

/-- What has been written is `out`: a prefix of a buffer of `room` elements. -/
structure Written (out dst : List α) (room : ℕ) : Prop where
  written : out <+: dst
  length : dst.length = room

namespace Written

variable {out dst x : List α} {room : ℕ}

lemma take_eq (h : Written out dst room) : dst.take out.length = out := by
  obtain ⟨t, rfl⟩ := h.written
  simp

lemma length_le (h : Written out dst room) : out.length ≤ room := by
  rw [← h.length]
  exact h.written.length_le

lemma weaken {out' : List α} (h : Written out dst room) (hp : out' <+: out) :
    Written out' dst room :=
  ⟨hp.trans h.written, h.length⟩

lemma slice_eq (h : Written out dst room) {a b : ℕ} (hb : b ≤ out.length) :
    slice dst a b = slice out a b := by
  conv_rhs => rw [← h.take_eq]
  exact (slice_take hb).symm

lemma overwritten (h : Written out dst room) (hx : out.length + x.length ≤ room) :
    Written (out ++ x) (overwrite dst out.length x) room := by
  have hl := h.length
  constructor
  · rw [overwrite, h.take_eq]
    exact List.prefix_append _ _
  · rw [overwrite, h.take_eq]
    simp only [List.length_append, List.length_drop]
    omega

lemma copiedFrom (h : Written out dst room) {src : List α} {s n : ℕ} (hs : s + n ≤ src.length)
    (hd : out.length + n ≤ room) :
    ∃ dst', copyFrom src dst s out.length n = some dst' ∧
    Written (out ++ slice src s (s + n)) dst' room := by
  have hn : (slice src s (s + n)).length = n := by rw [length_slice_of_le hs]; omega
  rw [copyFrom, if_pos ⟨hs, by rw [h.length]; exact hd⟩]
  exact ⟨_, rfl, h.overwritten (by rw [hn]; exact hd)⟩

lemma copiedNonoverlapping (h : Written out dst room) {s n : ℕ} (hs : s + n ≤ out.length)
    (hd : out.length + n ≤ room) :
    ∃ dst', copyNonoverlapping dst s out.length n = some dst' ∧
    Written (out ++ slice out s (s + n)) dst' room := by
  have hn : (slice out s (s + n)).length = n := by rw [length_slice_of_le hs]; omega
  rw [copyNonoverlapping, if_pos ⟨hs, by rw [h.length]; exact hd⟩, h.slice_eq hs]
  exact ⟨_, rfl, h.overwritten (by rw [hn]; exact hd)⟩

lemma copiedWithin (h : Written out dst room) {s n : ℕ} (hs : s + n ≤ out.length)
    (hd : out.length + n ≤ room) :
    ∃ dst', copyWithin dst s out.length n = some dst' ∧
    Written (out ++ slice out s (s + n)) dst' room := by
  have hn : (slice out s (s + n)).length = n := by rw [length_slice_of_le hs]; omega
  rw [copyWithin, if_pos (by rw [h.length]; omega), h.slice_eq hs]
  exact ⟨_, rfl, h.overwritten (by rw [hn]; exact hd)⟩

end Written

section Moves

variable {out dst : List α} {off room k w step : ℕ}

/-- **One move of a back reference**, from `step` back, to `k` elements past where it began. -/
lemma Written.moveBack (h : Written (extendBack out off k) dst room) (hpos : 0 < off)
    (hoff : off ≤ out.length) (hd : off ∣ step) (hw : w ≤ step) (hs : step ≤ k + off)
    (hroom : out.length + k + w ≤ room) :
    ∃ dst', copyNonoverlapping dst (out.length + k - step) (out.length + k) w = some dst'
      ∧ Written (extendBack out off (k + w)) dst' room := by
  have hlen := length_extendBack hpos hoff k
  obtain ⟨dst', he, hwr⟩ := h.copiedNonoverlapping (s := out.length + k - step) (n := w) (by omega)
    (by omega)
  rw [hlen] at he
  rw [extendBack_add hpos hoff hd hw hs]
  exact ⟨dst', he, hwr⟩

end Moves

/-! ## Loops of moves -/

/-- Moves of width `N` from `k` on: at least one, until `n` is reached. -/
def stride (N : ℕ) [NeZero N] (move : ℕ → List α → Option (List α)) (k n : ℕ) (dst : List α) :
    Option (List α) :=
  match move k dst with
  | none => none
  | some dst => if n ≤ k + N then some dst else stride N move (k + N) n dst
termination_by n - k
decreasing_by have := NeZero.pos N; omega

/-- **The invariant rule.**  What every move begun below `n` keeps holds where the loop stops, `n`
or less than one width past it. -/
lemma stride_spec {N : ℕ} [NeZero N] {f : ℕ → List α → Option (List α)}
    {P : ℕ → List α → Prop} {n : ℕ}
    (step : ∀ k dst, k < n → P k dst → ∃ dst', f k dst = some dst' ∧ P (k + N) dst') {k : ℕ}
    {dst : List α} (hk : k < n) (h : P k dst) :
    ∃ k' dst', stride N f k n dst = some dst' ∧ n ≤ k' ∧ P k' dst' := by
  induction hm : n - k using Nat.strong_induction_on generalizing k dst with
  | _ m ih =>
      obtain ⟨dst', he, hP⟩ := step k dst hk h
      have hN := NeZero.pos N
      rw [stride, he]
      simp only
      rcases Nat.lt_or_ge (k + N) n with hlt | hge
      · rw [if_neg (by omega)]
        exact ih (n - (k + N)) (by omega) hlt hP rfl
      · rw [if_pos hge]
        exact ⟨_, _, rfl, hge, hP⟩

end StorageLib

import Supdb.Lib.Bytes
import Supdb.Lib.Lex

/-!
# The ordered index

Beside each segment lies an ordered index: for each key a *head*, the eight bytes behind the prefix
all keys share.  Where the keys have one length that a head reaches the end of, a head with the
prefix is the whole key, and a walk over the keys reads no record.

The index is modelled as what opening its file gives; a head is kept as its eight bytes, whose order
is the order of the word they spell.
-/

namespace Supdb

open StorageLib

/-- Bytes of a head. -/
def HEAD : ℕ := 8

/-- Heads between two the top level holds. -/
def TOP_STRIDE : ℕ := 64

/-- `head_of`: the bytes of `key` behind the prefix, zeros where it is short. -/
def headOf (key : Bytes) (pfx : ℕ) : Bytes :=
  let h := (key.drop pfx).take HEAD
  h ++ List.replicate (HEAD - h.length) 0

/-- `common_prefix`: the bytes two keys share. -/
def commonPrefix : Bytes → Bytes → ℕ
  | a :: as, b :: bs => if a = b then commonPrefix as bs + 1 else 0
  | _, _ => 0

/-- A segment's ordered index, opened. -/
structure OrdIndex where
  n : ℕ
  pfx : ℕ
  uniformLen : Option ℕ
  /-- The common prefix, once learned. -/
  learned : Option Bytes
  heads : List Bytes
  top : List Bytes
  deriving DecidableEq, Repr

namespace OrdIndex

/-- `Composer`: the index of a segment's keys, in order. -/
def compose (keys : List Bytes) : OrdIndex :=
  let first := keys.head?.getD []
  let pfx := if keys = [] then 0 else commonPrefix first (keys.getLast?.getD [])
  let uniform : Bool := keys ≠ [] ∧ first.length ≤ pfx + HEAD ∧
    keys.all (fun k => k.length = first.length)
  let heads := keys.map (fun k => headOf k pfx)
  { n := keys.length, pfx := pfx, uniformLen := if uniform then some first.length else none
    learned := none, heads := heads
    top := (List.range ((keys.length + TOP_STRIDE - 1) / TOP_STRIDE)).map
      (fun i => heads.getD (i * TOP_STRIDE) []) }

/-- `learn_prefix`: the common prefix taken from the segment's first key. -/
def learnPrefix (o : OrdIndex) (firstKey : Bytes) : OrdIndex :=
  { o with learned := some (firstKey.take o.pfx) }

/-- `whole_key_at`: the key of a rank from its head alone, where a head is a whole key. -/
def wholeKeyAt (o : OrdIndex) (rank : ℕ) : Option Bytes := do
  let len ← o.uniformLen
  let pre ← o.learned
  if o.n ≤ rank ∨ pre.length ≠ o.pfx then none
  else
    let h := if rank % TOP_STRIDE = 0 then o.top.getD (rank / TOP_STRIDE) []
      else o.heads.getD rank []
    some (pre ++ h.take (len - o.pfx))

/-! ## Heads that are whole keys -/

lemma commonPrefix_spec (a b : Bytes) :
    commonPrefix a b ≤ a.length ∧ a.take (commonPrefix a b) = b.take (commonPrefix a b) := by
  induction a generalizing b with
  | nil => simp [commonPrefix]
  | cons x a ih =>
      cases b with
      | nil => simp [commonPrefix]
      | cons y b =>
          rw [commonPrefix]
          split_ifs with h
          · obtain ⟨h1, h2⟩ := ih b
            exact ⟨by simpa using h1, by rw [List.take_succ_cons, List.take_succ_cons, h2, h]⟩
          · simp

/-- Every key of a sorted segment starts with the prefix its index was composed with. -/
lemma take_pfx {keys : List Bytes} (hsorted : keys.Pairwise (· < ·)) {i : ℕ}
    (hi : i < keys.length) :
    keys[i].take (compose keys).pfx = (keys.head?.getD []).take (compose keys).pfx ∧
      (compose keys).pfx ≤ (keys.head?.getD []).length := by
  have hne : keys ≠ [] := List.ne_nil_of_length_pos (by omega)
  have hpfx : (compose keys).pfx
      = commonPrefix (keys.head?.getD []) (keys.getLast?.getD []) := if_neg hne
  obtain ⟨hle, heq⟩ := commonPrefix_spec (keys.head?.getD []) (keys.getLast?.getD [])
  have hfirst : keys.head?.getD [] = keys[0] := by
    rw [List.head?_eq_getElem?, List.getElem?_eq_getElem (by omega)]
    rfl
  have hlast : keys.getLast?.getD [] = keys[keys.length - 1] := by
    rw [List.getLast?_eq_getElem?, List.getElem?_eq_getElem (by omega)]
    rfl
  have hmono : ∀ a b (ha : a < keys.length) (hb : b < keys.length), a ≤ b → keys[a] ≤ keys[b] := by
    intro a b ha hb hab
    rcases Nat.eq_or_lt_of_le hab with rfl | hlt
    · exact le_refl _
    · exact (List.pairwise_iff_getElem.mp hsorted a b ha hb hlt).le
  rw [hpfx]
  refine ⟨take_eq_of_between ?_ ?_ hle heq, hle⟩
  · rw [hfirst]
    exact hmono 0 i (by omega) hi (by omega)
  · rw [hlast]
    exact hmono i (keys.length - 1) hi (by omega) (by omega)

/-- **A head that is a whole key is the key.** -/
lemma wholeKeyAt_compose {keys : List Bytes} (hsorted : keys.Pairwise (· < ·)) {first k : Bytes}
    (hfirst : keys.head? = some first) {r : ℕ}
    (h : ((compose keys).learnPrefix first).wholeKeyAt r = some k) : keys[r]? = some k := by
  simp only [wholeKeyAt, learnPrefix, Option.bind_eq_bind, Option.bind_some,
    Option.bind_eq_some_iff] at h
  obtain ⟨len, hlen, h⟩ := h
  obtain ⟨hr, h⟩ := Option.ite_none_left_eq_some.mp h
  have hn : r < keys.length := by
    by_contra hge
    exact hr (Or.inl (by simpa [compose] using hge))
  have huni : keys ≠ [] ∧ first.length ≤ (compose keys).pfx + HEAD ∧
      keys.all (fun k => k.length = first.length) = true ∧ len = first.length := by
    simp only [compose, hfirst, Option.getD_some] at hlen ⊢
    rw [Option.ite_none_right_eq_some, decide_eq_true_eq] at hlen
    exact ⟨hlen.1.1, hlen.1.2.1, hlen.1.2.2, (Option.some.inj hlen.2).symm⟩
  obtain ⟨hne, hreach, hall, rfl⟩ := huni
  have hklen : keys[r].length = first.length := by
    have := List.all_eq_true.mp hall keys[r] (List.getElem_mem hn)
    simpa using this
  obtain ⟨hpre, hple⟩ := take_pfx hsorted hn
  rw [hfirst, Option.getD_some] at hpre hple
  have hhead : (if r % TOP_STRIDE = 0 then (compose keys).top.getD (r / TOP_STRIDE) []
      else (compose keys).heads.getD r []) = headOf keys[r] (compose keys).pfx := by
    have hheads : (compose keys).heads.getD r [] = headOf keys[r] (compose keys).pfx := by
      simp only [compose, List.getD_eq_getElem?_getD, List.getElem?_map]
      rw [List.getElem?_eq_getElem hn]
      rfl
    split_ifs with htop
    · have hin : r / TOP_STRIDE < (keys.length + TOP_STRIDE - 1) / TOP_STRIDE := by
        simp only [TOP_STRIDE] at htop ⊢
        omega
      have hmul : r / TOP_STRIDE * TOP_STRIDE = r := by
        simp only [TOP_STRIDE] at htop ⊢
        omega
      rw [← hheads]
      simp only [compose, List.getD_eq_getElem?_getD, List.getElem?_map]
      rw [List.getElem?_range hin, Option.map_some, Option.getD_some, hmul]
    · exact hheads
  rw [hhead] at h
  have hbody : (headOf keys[r] (compose keys).pfx).take (first.length - (compose keys).pfx)
      = keys[r].drop (compose keys).pfx := by
    have hdrop : (keys[r].drop (compose keys).pfx).length
        = first.length - (compose keys).pfx := by rw [List.length_drop, hklen]
    have htake : (keys[r].drop (compose keys).pfx).take HEAD = keys[r].drop (compose keys).pfx :=
      List.take_of_length_le (by omega)
    simp only [headOf, htake]
    rw [← hdrop, List.take_left]
  rw [hbody, ← hpre, List.take_append_drop] at h
  rw [List.getElem?_eq_getElem hn]
  exact h

end OrdIndex

end Supdb

import Supdb.Lib.Bytes

/-!
# What was last written

Places of a memory are written over again and again, and what each place was last given is a partial
function of the place: `overlay` is that function after one more write.  A window of a block *shows*
the function where its bytes are what the places were last given.

* `overlay` – one more write.
* `overlayAll` – writes one after another.  **Writes that lie one behind another are one write.**
* `Shows` – a window shows what is known.
* `Shows.write`, `Shows.apart` – **a write is shown** by the window it is in, and leaves the windows
  apart from it.
* `Shows.slice_eq` – **what is known is what is read.**
-/

namespace StorageLib

/-- What is known of each place once `bytes` were written at `off`. -/
def overlay (known : ℕ → Option UInt8) (off : ℕ) (bytes : Bytes) (x : ℕ) : Option UInt8 :=
  if off ≤ x ∧ x < off + bytes.length then bytes[x - off]? else known x

/-- What is known once writes were made one after another, each at its place behind `base`. -/
def overlayAll (known : ℕ → Option UInt8) (base : ℕ) (ws : List (ℕ × Bytes)) : ℕ → Option UInt8 :=
  ws.foldl (fun known w => overlay known (base + w.1) w.2) known

/-- Writes that lie one behind another from `p` on. -/
def InARow : ℕ → List (ℕ × Bytes) → Prop
  | _, [] => True
  | p, w :: ws => w.1 = p ∧ InARow (p + w.2.length) ws

/-- The `n` bytes of `mem` at `w` are what the places from `base` on were last given. -/
def Shows (known : ℕ → Option UInt8) (base : ℕ) (mem : Bytes) (w n : ℕ) : Prop :=
  ∀ i < n, ∀ v, known (base + i) = some v → mem[w + i]? = some v

section Windows

variable {known : ℕ → Option UInt8} {mem bytes : Bytes} {base w n p q off : ℕ}

lemma getElem?_writeAt_eq (h : off + bytes.length ≤ mem.length) :
    (writeAt mem off bytes)[p]? = if off ≤ p ∧
    p < off + bytes.length then bytes[p - off]? else mem[p]? := by
  have htake : (mem.take off).length = off := by
    rw [List.length_take]
    omega
  rw [writeAt_of_le h]
  by_cases hbefore : p < off
  · rw [List.getElem?_append_left (by omega), List.getElem?_take, if_pos hbefore, if_neg (by omega)]
  · rw [List.getElem?_append_right (by omega), htake]
    by_cases hin : p < off + bytes.length
    · rw [List.getElem?_append_left (by omega), if_pos ⟨not_lt.mp hbefore, hin⟩]
    · rw [List.getElem?_append_right (by omega), List.getElem?_drop, if_neg (fun h => hin h.2)]
      congr 1
      omega

/-- A write in two parts is one write. -/
lemma overlay_append (known : ℕ → Option UInt8) (off : ℕ) (bytes rest : Bytes) :
    overlay (overlay known off bytes) (off + bytes.length) rest
    = overlay known off (bytes ++ rest) := by
  funext x
  rw [overlay, overlay, overlay, List.length_append]
  by_cases hfirst : off ≤ x ∧ x < off + bytes.length
  · rw [if_neg (by omega), if_pos hfirst, if_pos (by omega), List.getElem?_append_left (by omega)]
  · rw [if_neg hfirst]
    by_cases hrest : off + bytes.length ≤ x ∧ x < off + bytes.length + rest.length
    · rw [if_pos hrest, if_pos (by omega), List.getElem?_append_right (by omega)]
      congr 1
      omega
    · rw [if_neg hrest, if_neg (by omega)]

/-- A write of nothing is none. -/
lemma overlay_nil (known : ℕ → Option UInt8) (off : ℕ) : overlay known off [] = known := by
  funext x
  rw [overlay, List.length_nil, if_neg (by omega)]

/-- **Writes in a row** are one write. -/
lemma overlayAll_eq {ws : List (ℕ × Bytes)} (known : ℕ → Option UInt8) (h : InARow p ws) :
    overlayAll known base ws = overlay known (base + p) (ws.flatMap Prod.snd) := by
  induction ws generalizing known p with
  | nil =>
      rw [List.flatMap_nil, overlay_nil]
      rfl
  | cons w ws ih =>
      obtain ⟨rfl, hrest⟩ := h
      have hfirst := ih (overlay known (base + w.1) w.2) hrest
      rw [← Nat.add_assoc, overlay_append] at hfirst
      exact hfirst

/-- Writes change what is known of a set of places by what was known of them. -/
lemma overlayAll_congr {known known' : ℕ → Option UInt8} (places : ℕ → Prop)
    (h : ∀ x, places x → known x = known' x)
    (base : ℕ) (ws : List (ℕ × Bytes)) (x : ℕ) (hx : places x) : overlayAll known base ws x
    = overlayAll known' base ws x := by
  induction ws generalizing known known' with
  | nil => exact h x hx
  | cons w ws ih =>
      refine ih (fun y hy => ?_)
      show overlay known (base + w.1) w.2 y = overlay known' (base + w.1) w.2 y
      rw [overlay, overlay, h y hy]

/-- What was written is known. -/
lemma overlay_written {i : ℕ} {v : UInt8} (known : ℕ → Option UInt8) (h : bytes[i]? = some v) :
    overlay known off bytes (off + i) = some v := by
  have hlt := (List.getElem?_eq_some_iff.mp h).1
  rw [overlay, if_pos (by omega), Nat.add_sub_cancel_left]
  exact h

/-- Nothing is known of a window of fresh places. -/
lemma Shows.fresh (h : ∀ i < n, known (base + i) = none) : Shows known base mem w n := by
  intro i hi v hv
  rw [h i hi] at hv
  exact absurd hv (by simp)

/-- A window shows less where less is known. -/
lemma Shows.mono {known' : ℕ → Option UInt8} (h : Shows known base mem w n)
    (hless : ∀ x v, known' x = some v → known x = some v) : Shows known' base mem w n :=
  fun i hi v hv => h i hi v (hless _ v hv)

/-- **A write is shown** by the window it is in. -/
lemma Shows.write (h : Shows known base mem w n) (hp : p + bytes.length ≤ n)
    (hroom : w + n ≤ mem.length) :
    Shows (overlay known (base + p) bytes) base (writeAt mem (w + p) bytes) w n := by
  intro i hi v hv
  rw [getElem?_writeAt_eq (by omega)]
  rw [overlay] at hv
  by_cases hin : p ≤ i ∧ i < p + bytes.length
  · rw [if_pos (by omega)] at hv ⊢
    rw [← hv]
    congr 1
    omega
  · rw [if_neg (by omega)] at hv ⊢
    exact h i hi v hv

/-- **A window apart** from a write, in the places and in the block, shows what it did. -/
lemma Shows.apart (h : Shows known base mem w n) (hroom : q + bytes.length ≤ mem.length)
    (hplaces : base + n ≤ off ∨ off + bytes.length ≤ base)
    (hblock : w + n ≤ q ∨ q + bytes.length ≤ w) :
    Shows (overlay known off bytes) base (writeAt mem q bytes) w n := by
  intro i hi v hv
  rw [overlay, if_neg (by omega)] at hv
  rw [getElem?_writeAt_eq hroom, if_neg (by omega)]
  exact h i hi v hv

/-- A window in another block shows what it did, where the places are apart. -/
lemma Shows.elsewhere (h : Shows known base mem w n)
    (hplaces : base + n ≤ off ∨ off + bytes.length ≤ base) :
    Shows (overlay known off bytes) base mem w n := by
  intro i hi v hv
  rw [overlay, if_neg (by omega)] at hv
  exact h i hi v hv

/-- **What is known is what is read.** -/
lemma Shows.slice_eq (h : Shows known base mem w n) (hp : p + bytes.length ≤ n)
    (hroom : w + n ≤ mem.length)
    (hknown : ∀ i v, bytes[i]? = some v → known (base + p + i) = some v) :
    slice mem (w + p) (w + p + bytes.length) = bytes := by
  have hlen : (slice mem (w + p) (w + p + bytes.length)).length = bytes.length := by
    rw [length_slice_of_le (by omega)]
    omega
  refine List.ext_getElem? (fun i => ?_)
  by_cases hi : i < bytes.length
  · have hget := List.getElem?_eq_getElem hi
    have hplace := hknown i _ hget
    rw [Nat.add_assoc] at hplace
    rw [getElem?_slice (by omega), hget, Nat.add_assoc]
    exact h (p + i) (by omega) _ hplace
  · rw [List.getElem?_eq_none (by omega), List.getElem?_eq_none (by omega)]

end Windows

end StorageLib

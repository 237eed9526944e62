import Supdb.Lib.Bytes

/-!
# Records laid out at fixed offsets

A record whose fields each have an offset of their own, written one after another into a buffer.

* `layOut` – the buffer with every field written.
* `Ascends` – the fields come in order of their offsets and none reaches into the next.
* **`hasAt_layOut`** – every field is found at its offset, and **`HasAt.layOut`** – what lies clear
  of the fields stays.
-/

namespace StorageLib

/-- A buffer with the fields, each with its offset, written into it. -/
def layOut (fs : List (ℕ × Bytes)) (b : Bytes) : Bytes := fs.foldl (fun b f => writeAt b f.1 f.2) b

/-- The fields come in order, from `lo`, none reaches into the next, and the last ends by `hi`. -/
def Ascends (lo hi : ℕ) : List (ℕ × Bytes) → Prop
  | [] => lo ≤ hi
  | f :: fs => lo ≤ f.1 ∧ Ascends (f.1 + f.2.length) hi fs

section LayOut

variable {fs : List (ℕ × Bytes)} {b : Bytes} {lo hi : ℕ}

lemma Ascends.le (h : Ascends lo hi fs) : lo ≤ hi := by
  induction fs generalizing lo with
  | nil => exact h
  | cons f fs ih =>
      obtain ⟨h1, h2⟩ := h
      have := ih h2
      omega

lemma Ascends.within (h : Ascends lo hi fs) : ∀ f ∈ fs, lo ≤ f.1 ∧ f.1 + f.2.length ≤ hi := by
  induction fs generalizing lo with
  | nil => simp
  | cons f fs ih =>
      obtain ⟨h1, h2⟩ := h
      intro g hg
      rcases List.mem_cons.mp hg with rfl | hg
      · exact ⟨h1, h2.le⟩
      · have := ih h2 g hg
        omega

lemma length_layOut (h : Ascends lo hi fs) (hb : hi ≤ b.length) :
    (layOut fs b).length = b.length := by
  induction fs generalizing lo b with
  | nil => rfl
  | cons f fs ih =>
      obtain ⟨h1, h2⟩ := h
      have hend := h2.le
      have hlen : (writeAt b f.1 f.2).length = b.length := length_writeAt_of_le (by omega)
      have hrest := @ih (writeAt b f.1 f.2) _ h2 (by rw [hlen]; exact hb)
      rw [hlen] at hrest
      exact hrest

/-- What lies clear of the fields stays. -/
lemma HasAt.layOut {x : Bytes} {pos : ℕ} (hat : HasAt b pos x) (h : Ascends lo hi fs)
    (hb : hi ≤ b.length) (hclear : pos + x.length ≤ lo ∨ hi ≤ pos) : HasAt (layOut fs b) pos x := by
  induction fs generalizing lo b with
  | nil => exact hat
  | cons f fs ih =>
      obtain ⟨h1, h2⟩ := h
      have hend := h2.le
      have hlen : (StorageLib.writeAt b f.1 f.2).length = b.length := length_writeAt_of_le (by omega)
      exact ih (hat.writeAt (by omega) (by omega)) h2 (by rw [hlen]; exact hb) (by omega)

/-- **Every field is found at its offset.** -/
lemma hasAt_layOut (h : Ascends lo hi fs) (hb : hi ≤ b.length) :
    ∀ f ∈ fs, HasAt (layOut fs b) f.1 f.2 := by
  induction fs generalizing lo b with
  | nil => simp
  | cons f fs ih =>
      obtain ⟨h1, h2⟩ := h
      have hend := h2.le
      have hlen : (writeAt b f.1 f.2).length = b.length := length_writeAt_of_le (by omega)
      intro g hg
      rcases List.mem_cons.mp hg with rfl | hg
      · exact (hasAt_writeAt (by omega)).layOut h2 (by rw [hlen]; exact hb) (Or.inl le_rfl)
      · exact ih h2 (by rw [hlen]; exact hb) g hg

end LayOut

end StorageLib

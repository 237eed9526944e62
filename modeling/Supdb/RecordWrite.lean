import Supdb.RecordCoding

/-!
# What `encode_record_group` writes

Each record is written behind the one before, and its offset into the table in front.  Later records
leave what is there alone, so what one turn writes is what a reader finds.

* `codedBytes` – a record's fields, end to end.
* `Coded` – a payload holds a record of an image.
* `encodeRec_coded` – one turn writes its record and leaves the rest.
* **`encodeRecs_coded`** – the payload holds every record.
-/

namespace Supdb

open StorageLib

/-! ## Varints -/

/-- A varint is its bytes, written in one piece. -/
lemma putVar_eq_some (v : ℕ) : ∀ {out out' : Bytes} {pos pos' : ℕ}, putVar out pos v
    = some (out', pos') →
    out' = writeAt out pos (uvarint v) ∧ pos' = pos + (uvarint v).length ∧ pos' ≤ out.length := by
  induction v using Nat.strong_induction_on with
  | _ v ih =>
      intro out out' pos pos' h
      rw [putVar] at h
      split at h
      · simp at h
      rename_i hin
      split at h
      · rename_i hv
        simp only [Option.some.injEq, Prod.mk.injEq] at h
        obtain ⟨rfl, rfl⟩ := h
        rw [uvarint_of_lt (by omega), Nat.mod_eq_of_lt (by omega)]
        exact ⟨rfl, rfl, by omega⟩
      · rename_i hv
        have hlen : pos + [UInt8.ofNat (v % 128 + 128)].length ≤ out.length := by
          rw [List.length_singleton]
          omega
        obtain ⟨rfl, rfl, hle⟩ := ih (v / 128) (by omega) h
        rw [length_writeAt_of_le hlen] at hle
        rw [uvarint_of_ge (show 128 ≤ v by omega), List.length_cons]
        refine ⟨?_, by omega, hle⟩
        exact writeAt_writeAt out pos (x := [UInt8.ofNat (v % 128 + 128)]) (by rw [List.length_singleton]; omega)

/-- A varint is written where there is room for it. -/
lemma putVar_of_room (v : ℕ) : ∀ {out : Bytes} {pos : ℕ}, pos + (uvarint v).length ≤ out.length →
    putVar out pos v = some (writeAt out pos (uvarint v), pos + (uvarint v).length) := by
  intro out pos hroom
  have hsome : ∃ r, putVar out pos v = some r := by
    induction v using Nat.strong_induction_on generalizing out pos with
    | _ v ih =>
        rw [putVar]
        by_cases hv : v < 128
        · rw [uvarint_of_lt hv, List.length_singleton] at hroom
          rw [if_neg (by omega), if_pos (by omega)]
          exact ⟨_, rfl⟩
        · rw [uvarint_of_ge (by omega), List.length_cons] at hroom
          rw [if_neg (by omega), if_neg (by omega)]
          refine ih (v / 128) (by omega) ?_
          rw [length_writeAt_of_le (by rw [List.length_singleton]; omega)]
          omega
  obtain ⟨⟨out', pos'⟩, h⟩ := hsome
  obtain ⟨rfl, rfl, _⟩ := putVar_eq_some v h
  exact h

/-- A varint of at most five bytes is read back. -/
lemma getVarFrom_eq (k : ℕ) : ∀ {b : Bytes} {pos acc v : ℕ}, k ≤ 4 → v < 128 ^ (k + 1) →
    acc < 2 ^ (7 * (4 - k)) → HasAt b pos (uvarint v) →
    getVarFrom b pos acc (7 * (4 - k))
    = some (acc + v * 2 ^ (7 * (4 - k)), pos + (uvarint v).length) := by
  induction k with
  | zero =>
      intro b pos acc v _ hv hacc hat
      rw [uvarint_of_lt (by omega), hasAt_byte] at hat
      have hb : (UInt8.ofNat v).toNat = v := by
        rw [UInt8.toNat_ofNat']
        omega
      rw [getVarFrom, hat]
      simp only
      rw [hb, if_pos (by omega), and_127, Nat.mod_eq_of_lt (by omega), or_shiftLeft_eq hacc,
        uvarint_of_lt (by omega), List.length_singleton]
  | succ k ih =>
      intro b pos acc v hk hv hacc hat
      by_cases hsmall : v < 128
      · rw [uvarint_of_lt hsmall, hasAt_byte] at hat
        have hb : (UInt8.ofNat v).toNat = v := by
          rw [UInt8.toNat_ofNat']
          omega
        rw [getVarFrom, hat]
        simp only
        rw [hb, if_pos (by omega), and_127, Nat.mod_eq_of_lt hsmall, or_shiftLeft_eq hacc,
          uvarint_of_lt hsmall, List.length_singleton]
      · have hge : 128 ≤ v := by omega
        rw [uvarint_of_ge hge, ← List.singleton_append, hasAt_append, hasAt_byte, List.length_singleton] at hat
        obtain ⟨hbyte, hat⟩ := hat
        have hb : (UInt8.ofNat (v % 128 + 128)).toNat = v % 128 + 128 := by
          rw [UInt8.toNat_ofNat']
          omega
        have hshift : 7 * (4 - (k + 1)) + 7 = 7 * (4 - k) := by omega
        have hpow : 2 ^ (7 * (4 - k)) = 2 ^ (7 * (4 - (k + 1))) * 128 := by
          rw [← hshift, pow_add]
          norm_num
        have hmod : v % 128 < 128 := Nat.mod_lt _ (by norm_num)
        rw [getVarFrom, hbyte]
        simp only
        rw [hb, if_neg (by omega), if_neg (by omega), and_127, Nat.add_mod_right, Nat.mod_mod,
          or_shiftLeft_eq hacc, hshift, ih (by omega) ?_ ?_ hat]
        · rw [uvarint_of_ge hge, List.length_cons, hpow]
          simp only [Option.some.injEq, Prod.mk.injEq]
          have hdm := Nat.mod_add_div v 128
          refine ⟨?_, by omega⟩
          calc acc + v % 128 * 2 ^ (7 * (4 - (k + 1))) + v / 128 * (2 ^ (7 * (4 - (k + 1))) * 128)
              = acc + (v % 128 + 128 * (v / 128)) * 2 ^ (7 * (4 - (k + 1))) := by ring
            _ = acc + v * 2 ^ (7 * (4 - (k + 1))) := by rw [hdm]
        · rw [pow_succ] at hv
          exact (Nat.div_lt_iff_lt_mul (by norm_num)).mpr hv
        · rw [hpow]
          nlinarith

lemma getVar_eq {b : Bytes} {pos v : ℕ} (hv : v < 2 ^ 35) (hat : HasAt b pos (uvarint v)) :
    getVar b pos = some (v, pos + (uvarint v).length) := by
  have h := @getVarFrom_eq 4 _ _ 0 _ (le_refl 4) (by norm_num; omega) (by norm_num) hat
  simpa [getVar] using h

/-! ## The shared part of two heads -/

lemma take_sharedLen (a : Bytes) : ∀ b : Bytes,
    sharedLen a b ≤ a.length ∧ sharedLen a b ≤ b.length ∧
    a.take (sharedLen a b) = b.take (sharedLen a b) := by
  induction a with
  | nil => intro b; simp [sharedLen]
  | cons x a ih =>
      intro b
      cases b with
      | nil => simp [sharedLen]
      | cons y b =>
          obtain ⟨h1, h2, h3⟩ := ih b
          rw [sharedLen] at h1 h2 h3
          rw [sharedLen, List.zip_cons_cons, List.takeWhile_cons]
          split
          · rename_i hxy
            simp only [decide_eq_true_eq] at hxy
            rw [List.length_cons, List.length_cons, List.length_cons, List.take_succ_cons, List.take_succ_cons, hxy, h3]
            exact ⟨by omega, by omega, rfl⟩
          · simp

/-! ## One record -/

lemma length_uvarint_le (k : ℕ) : ∀ {v : ℕ}, v < 128 ^ (k + 1) → (uvarint v).length ≤ k + 1 := by
  induction k with
  | zero =>
      intro v hv
      rw [uvarint_of_lt (by omega), List.length_singleton]
  | succ k ih =>
      intro v hv
      by_cases h : v < 128
      · rw [uvarint_of_lt h, List.length_singleton]
        omega
      · rw [uvarint_of_ge (by omega), List.length_cons]
        rw [pow_succ] at hv
        have := ih ((Nat.div_lt_iff_lt_mul (by norm_num)).mpr hv)
        omega

/-- A record's fields, end to end. -/
def codedBytes (r : CodedRec) : Bytes :=
  uvarint r.plen ++ uvarint r.suffix.length ++ r.suffix ++ uvarint r.ulen ++
    uvarint r.tail.length ++ r.tail

/-- The tail of an image. -/
def tailOf (img : Bytes) (head : ℕ) : Bytes := img.drop (alignUp head 4)

/-- The fields of record `i` are those of an image of head `head`, coded against `img0`'s. -/
structure CodedAs (lz4 : DictLz4) (img0 : Bytes) (head0 i : ℕ) (img : Bytes) (head : ℕ)
    (r : CodedRec) : Prop where
  plen : r.plen ≤ head ∧ r.plen ≤ head0
  shared : img.take r.plen = img0.take r.plen
  suffix : r.suffix = slice img r.plen head
  ulen : r.ulen = img.length
  tail : r.tail = tailOf img head ∨ r.tail.length < (tailOf img head).length ∧
    lz4.decompressIntoWithDict r.tail (tailOf img head).length (tailOf img0 head0)
    = some (tailOf img head)
  first : i = 0 → r.plen = 0 ∧ r.tail = tailOf img head

lemma imageHeadLen_le {img : Bytes} {head : ℕ} (h : imageHeadLen img = some head) : 4 ≤ head ∧
    head ≤ img.length := by
  rw [imageHeadLen, Option.bind_eq_bind, Option.bind_eq_some_iff] at h
  obtain ⟨klen, _, h⟩ := h
  split at h
  · rw [Option.some.injEq] at h
    omega
  · simp at h

/-- The fields before a tail. -/
def headFields (plen : ℕ) (suffix : Bytes) (ulen : ℕ) : Bytes :=
  uvarint plen ++ uvarint suffix.length ++ suffix ++ uvarint ulen

lemma putSlice_eq_some {out out' x : Bytes} {pos : ℕ} (h : putSlice out pos x = some out') :
    out' = writeAt out pos x ∧ pos + x.length ≤ out.length := by
  rw [putSlice] at h
  split at h
  · rename_i hin
    rw [Option.some.injEq] at h
    exact ⟨h.symm, hin⟩
  · simp at h

/-- The head's fields are written in one piece. -/
lemma encodeHead_eq_some {img0 img out out' : Bytes} {head0 head i pos pos' : ℕ}
    (hhead : head ≤ img.length) (hhead0 : head0 ≤ img0.length)
    (h : encodeHead img0 head0 i img head out pos = some (out', pos')) :
    ∃ plen, plen ≤ head ∧ plen ≤ head0 ∧ img.take plen = img0.take plen ∧ (i = 0 → plen = 0)
      ∧ out' = writeAt out pos (headFields plen (slice img plen head) img.length)
      ∧ pos' = pos + (headFields plen (slice img plen head) img.length).length ∧
      pos' ≤ out.length := by
  rw [encodeHead] at h
  simp only [Option.bind_eq_bind, Option.bind_eq_some_iff] at h
  obtain ⟨⟨o2, p2⟩, h2, ⟨o3, p3⟩, h3, o4, h4, h5⟩ := h
  generalize hplen : (if i = 0 then 0 else sharedLen (img.take head) (img0.take head0))
    = plen at h2 h3 h4 h5
  have hp : plen ≤ head ∧ plen ≤ head0 ∧ img.take plen = img0.take plen ∧ (i = 0 → plen = 0) := by
    rw [← hplen]
    split
    · simp
    · rename_i hi0
      obtain ⟨h1, h2, h3⟩ := take_sharedLen (img.take head) (img0.take head0)
      rw [List.length_take] at h1 h2
      rw [List.take_take, List.take_take, Nat.min_eq_left (by omega), Nat.min_eq_left (by omega)] at h3
      exact ⟨by omega, by omega, h3, fun h => absurd h hi0⟩
  have hsl : (slice img plen head).length = head - plen := length_slice_of_le hhead
  obtain ⟨rfl, rfl, hle2⟩ := putVar_eq_some _ h2
  obtain ⟨rfl, rfl, hle3⟩ := putVar_eq_some _ h3
  obtain ⟨rfl, hle4⟩ := putSlice_eq_some h4
  obtain ⟨rfl, rfl, hle5⟩ := putVar_eq_some _ h5
  rw [length_writeAt_of_le hle2] at hle3
  rw [length_writeAt_of_le (by rw [length_writeAt_of_le hle2]; exact hle3),
    length_writeAt_of_le hle2] at hle4
  rw [length_writeAt_of_le (by
      rw [length_writeAt_of_le (by rw [length_writeAt_of_le hle2]; exact hle3), length_writeAt_of_le hle2]
      exact hle4),
    length_writeAt_of_le (by rw [length_writeAt_of_le hle2]; exact hle3),
      length_writeAt_of_le hle2] at hle5
  refine ⟨plen, hp.1, hp.2.1, hp.2.2.1, hp.2.2.2, ?_, ?_, ?_⟩
  · rw [headFields, hsl, writeAt_writeAt _ _ hle3, Nat.add_assoc pos, ← List.length_append,
      writeAt_writeAt _ _ (by rw [List.length_append]; omega),
      Nat.add_assoc pos, ← hsl, ← List.length_append,
      writeAt_writeAt _ _ (by simp only [List.length_append, hsl]; omega)]
  · rw [headFields]
    simp only [List.length_append, hsl]
    omega
  · omega

lemma tailBlock_spec {lz4 : DictLz4} (hl : lz4.Lossless) (tail0 : Bytes) (rawTails : Bool) (i : ℕ)
    (tail room : Bytes) : (tailBlock lz4 tail0 rawTails i tail room).1.length = room.length
      ∧ ∀ c, (tailBlock lz4 tail0 rawTails i tail room).2 = some c → i ≠ 0 ∧ c ≤ room.length
        ∧ lz4.decompressIntoWithDict ((tailBlock lz4 tail0 rawTails i tail room).1.take c)
          tail.length tail0 = some tail := by
  rw [tailBlock]
  split
  · exact ⟨rfl, by simp⟩
  · rename_i hno
    refine ⟨hl.room _ _ _, ?_⟩
    intro c hc
    exact ⟨fun h0 => hno (Or.inl h0), hl.fits _ _ _ c hc, hl.back _ _ _ c hc⟩

lemma storedLen_cases (made : Option ℕ) (n : ℕ) :
    storedLen made n = n ∨ storedLen made n < n ∧ made = some (storedLen made n) := by
  cases made with
  | none => exact Or.inl rfl
  | some c =>
      rw [storedLen]
      split
      · rename_i hc
        exact Or.inr ⟨hc, rfl⟩
      · exact Or.inl rfl

/-- The tail is written behind its length, compressed or as it is, and what is in front is left
alone. -/
lemma encodeTail_eq_some {lz4 : DictLz4} (hl : lz4.Lossless) {tail0 tail out out' : Bytes}
    {i pos pos' : ℕ} {rawTails : Bool} (htail : tail.length ≤ ZMAX_ULEN)
    (h : encodeTail lz4 tail0 rawTails i tail out pos = some (out', pos')) :
    ∃ t, (t = tail ∨ i ≠ 0 ∧ t.length < tail.length ∧ lz4.decompressIntoWithDict t tail.length tail0
      = some tail) ∧ out'.length = out.length ∧ pos' ≤ out.length ∧
      pos' = pos + (uvarint t.length ++ t).length
      ∧ HasAt out' pos (uvarint t.length ++ t) ∧ ∀ off x, HasAt out off x → off + x.length ≤ pos →
      HasAt out' off x := by
  rw [encodeTail] at h
  split at h
  · simp at h
  rename_i hroom
  simp only at h
  obtain ⟨hlen, hmade⟩ := tailBlock_spec hl tail0 rawTails i tail (out.drop (pos + FIELD_MAX))
  generalize tailBlock lz4 tail0 rawTails i tail (out.drop (pos + FIELD_MAX))
    = block at h hlen hmade
  obtain ⟨room, made⟩ := block
  simp only [List.length_drop] at h hlen hmade
  have hin : pos + FIELD_MAX + room.length ≤ out.length := by omega
  have hl6 : (writeAt out (pos + FIELD_MAX) room).length = out.length := length_writeAt_of_le hin
  split at h
  · rename_i hless
    rcases storedLen_cases made tail.length with heq | ⟨hc, hsome⟩
    · omega
    generalize storedLen made tail.length = c at h hc hsome
    obtain ⟨hi0, hcle, hback⟩ := hmade c hsome
    simp only [Option.bind_eq_bind, Option.bind_eq_some_iff] at h
    obtain ⟨⟨o7, p7⟩, h7, h⟩ := h
    obtain ⟨rfl, rfl, hle7⟩ := putVar_eq_some _ h7
    simp only [Option.some.injEq, Prod.mk.injEq] at h
    obtain ⟨rfl, rfl⟩ := h
    rw [hl6] at hle7
    have hfield : (uvarint c).length ≤ FIELD_MAX := by
      rw [ZMAX_ULEN] at htail
      exact length_uvarint_le 2 (by norm_num; omega)
    have htake : (room.take c).length = c := by rw [List.length_take]; omega
    have hblk : slice (writeAt (writeAt out (pos + FIELD_MAX) room) pos (uvarint c))
        (pos + FIELD_MAX) (pos + FIELD_MAX + c) = room.take c := by
      have h1 := hasAt_writeAt hin
      rw [← List.take_append_drop c room, hasAt_append, List.take_append_drop] at h1
      have h2 := @HasAt.writeAt _ (uvarint c) _ pos _ h1.1 (by rw [hl6]; exact hle7) (Or.inr (by omega))
      rw [HasAt, htake] at h2
      exact h2
    rw [hblk]
    have hl7 : (writeAt (writeAt out (pos + FIELD_MAX) room) pos (uvarint c)).length
      = out.length := by
      rw [length_writeAt_of_le (by rw [hl6]; exact hle7), hl6]
    have hfit : pos + (uvarint c).length + (room.take c).length ≤ out.length := by omega
    refine ⟨room.take c, Or.inr ⟨hi0, by omega, hback⟩, ?_, by omega, ?_, ?_, ?_⟩
    · rw [length_writeAt_of_le (by rw [hl7]; exact hfit), hl7]
    · rw [List.length_append, htake, Nat.add_assoc]
    · rw [hasAt_append, htake]
      refine ⟨?_, hasAt_writeAt (by rw [hl7]; exact hfit)⟩
      exact (hasAt_writeAt (by rw [hl6]; exact hle7)).writeAt (by rw [hl7]; exact hfit) (Or.inl (le_refl _))
    · intro off x hat hle
      refine HasAt.writeAt ?_ (by rw [hl7]; exact hfit) (Or.inl (by omega))
      refine HasAt.writeAt ?_ (by rw [hl6]; exact hle7) (Or.inl hle)
      exact hat.writeAt hin (Or.inl (by omega))
  · rename_i hless
    have hclen : storedLen made tail.length = tail.length := by
      rcases storedLen_cases made tail.length with heq | ⟨hc, _⟩
      · exact heq
      · exact absurd hc hless
    rw [hclen] at h
    simp only [Option.bind_eq_bind, Option.bind_eq_some_iff] at h
    obtain ⟨⟨o7, p7⟩, h7, o8, h8, h⟩ := h
    obtain ⟨rfl, rfl, hle7⟩ := putVar_eq_some _ h7
    obtain ⟨rfl, hle8⟩ := putSlice_eq_some h8
    simp only [Option.some.injEq, Prod.mk.injEq] at h
    obtain ⟨rfl, rfl⟩ := h
    rw [hl6] at hle7
    have hl7 : (writeAt (writeAt out (pos + FIELD_MAX) room) pos (uvarint tail.length)).length
      = out.length := by
      rw [length_writeAt_of_le (by rw [hl6]; exact hle7), hl6]
    rw [hl7] at hle8
    refine ⟨tail, Or.inl rfl, ?_, by omega, ?_, ?_, ?_⟩
    · rw [length_writeAt_of_le (by rw [hl7]; exact hle8), hl7]
    · rw [List.length_append, Nat.add_assoc]
    · rw [hasAt_append]
      refine ⟨?_, hasAt_writeAt (by rw [hl7]; exact hle8)⟩
      exact (hasAt_writeAt (by rw [hl6]; exact hle7)).writeAt (by rw [hl7]; exact hle8) (Or.inl (le_refl _))
    · intro off x hat hle
      refine HasAt.writeAt ?_ (by rw [hl7]; exact hle8) (Or.inl (by omega))
      refine HasAt.writeAt ?_ (by rw [hl6]; exact hle7) (Or.inl hle)
      exact hat.writeAt hin (Or.inl (by omega))

/-- **One turn writes its record** and its offset, and leaves the rest of what is in front. -/
lemma encodeRec_coded {lz4 : DictLz4} (hl : lz4.Lossless) {img0 img out out' : Bytes}
    {head0 i pos pos' : ℕ} {rawTails : Bool} (himg : img.length ≤ ZMAX_ULEN) (hi : 2 * i + 2 ≤ pos)
    (hpos : pos ≤ out.length) (hhead0 : head0 ≤ img0.length)
    (h : encodeRec lz4 img0 head0 (tailOf img0 head0) rawTails i img out pos = some (out', pos')) :
    ∃ head r, imageHeadLen img = some head ∧ CodedAs lz4 img0 head0 i img head r ∧ 4 ∣ img.length ∧
      pos < 2 ^ 16 ∧ out'.length = out.length ∧ pos' ≤ out.length ∧
      pos' = pos + (codedBytes r).length ∧ HasAt out' (2 * i) (leBytes 2 pos) ∧
      HasAt out' pos (codedBytes r)
      ∧ ∀ off x, HasAt out off x → off + x.length ≤ 2 * i ∨ 2 * i + 2 ≤ off ∧ off + x.length ≤ pos →
          HasAt out' off x := by
  rw [encodeRec] at h
  split at h
  · simp at h
  rename_i hwhole
  rw [not_or, not_not] at hwhole
  split at h
  · simp at h
  rename_i hoff
  simp only [Option.bind_eq_bind, Option.bind_eq_some_iff] at h
  obtain ⟨head, hhead, ⟨o2, p2⟩, h2, h⟩ := h
  obtain ⟨hfour, hheadle⟩ := imageHeadLen_le hhead
  have htab : 2 * i + (leBytes 2 pos).length ≤ out.length := by
    rw [length_leBytes]
    omega
  have hl1 : (writeAt out (2 * i) (leBytes 2 pos)).length = out.length := length_writeAt_of_le htab
  obtain ⟨plen, hp, hp0, hshared, hfirst, rfl, rfl, hle2⟩ := encodeHead_eq_some hheadle hhead0 h2
  rw [hl1] at hle2
  have hl2 : (writeAt (writeAt out (2 * i) (leBytes 2 pos)) pos
      (headFields plen (slice img plen head) img.length)).length = out.length := by
    rw [length_writeAt_of_le (by rw [hl1]; exact hle2), hl1]
  obtain ⟨t, ht, hl3, hle3, rfl, hat, hframe⟩ :=
    encodeTail_eq_some hl (by rw [List.length_drop]; omega) h
  rw [hl2] at hl3 hle3
  have hrec : codedBytes ⟨plen, slice img plen head, img.length, t⟩
      = headFields plen (slice img plen head) img.length ++ (uvarint t.length ++ t) := by
    simp only [codedBytes, headFields, List.append_assoc]
  refine ⟨head, ⟨plen, slice img plen head, img.length, t⟩, hhead,
    ⟨⟨hp, hp0⟩, hshared, rfl, rfl, ?_, ?_⟩, hwhole.2, by omega, hl3, hle3, ?_, ?_, ?_, ?_⟩
  · rcases ht with rfl | ⟨_, hlt, hback⟩
    · exact Or.inl rfl
    · exact Or.inr ⟨hlt, hback⟩
  · intro hi0
    rcases ht with rfl | ⟨hne, _⟩
    · exact ⟨hfirst hi0, rfl⟩
    · exact absurd hi0 hne
  · rw [hrec]
    simp only [List.length_append]
    omega
  · refine hframe _ _ ?_ (by rw [length_leBytes]; omega)
    refine (hasAt_writeAt htab).writeAt (by rw [hl1]; exact hle2) (Or.inl ?_)
    rw [length_leBytes]
    omega
  · rw [hrec, hasAt_append]
    exact ⟨hframe _ _ (hasAt_writeAt (by rw [hl1]; exact hle2)) (le_refl _), hat⟩
  · intro off x hx hoff
    refine hframe _ _ ?_ (by omega)
    refine HasAt.writeAt ?_ (by rw [hl1]; exact hle2) (Or.inl (by omega))
    refine hx.writeAt htab ?_
    rw [length_leBytes]
    omega

/-- A record is written where there is room for its image and its fields at their longest. -/
lemma encodeRec_of_room {lz4 : DictLz4} (hl : lz4.Lossless) (img0 out : Bytes) (head0 i pos : ℕ)
    (rawTails : Bool) {img : Bytes} {head : ℕ} (hhead : imageHeadLen img = some head)
    (hdvd : 4 ∣ img.length) (himg : img.length < 128 ^ 3) (hi : 2 * i + 2 ≤ pos)
    (hpos : pos < 2 ^ 16) (hroom : pos + img.length + 12 ≤ out.length) : ∃ out' pos',
      encodeRec lz4 img0 head0 (tailOf img0 head0) rawTails i img out pos = some (out', pos')
        ∧ out'.length = out.length ∧ pos ≤ pos' ∧ pos' ≤ pos + img.length + 12 := by
  obtain ⟨hfour, hle⟩ := imageHeadLen_le hhead
  have htab : 2 * i + (leBytes 2 pos).length ≤ out.length := by
    rw [length_leBytes]
    omega
  have hl1 := length_writeAt_of_le htab
  have hshort : ∀ {v : ℕ}, v ≤ img.length → (uvarint v).length ≤ 3 := by
    intro v hv
    exact length_uvarint_le 2 (by omega)
  -- the head
  generalize hplen : (if i = 0 then 0 else sharedLen (img.take head) (img0.take head0)) = plen
  have hp : plen ≤ head := by
    rw [← hplen]
    split
    · omega
    · have h := (take_sharedLen (img.take head) (img0.take head0)).1
      rw [List.length_take] at h
      omega
  have hsl : (slice img plen head).length = head - plen := length_slice_of_le hle
  have h1 := hshort (v := plen) (by omega)
  have h2 := hshort (v := head - plen) (by omega)
  have h3 := hshort (v := img.length) (le_refl _)
  have hhd : ∃ o5, encodeHead img0 head0 i img head (writeAt out (2 * i) (leBytes 2 pos)) pos
      = some (o5, pos + (uvarint plen).length + (uvarint (head - plen)).length + (head - plen)
        + (uvarint img.length).length) ∧ o5.length = out.length := by
    rw [encodeHead, hplen]
    have e1 : pos + (uvarint plen).length ≤ (writeAt out (2 * i) (leBytes 2 pos)).length := by omega
    have l1 := length_writeAt_of_le e1
    simp only [putVar_of_room plen e1, Option.bind_eq_bind, Option.bind_some]
    have e2 : pos + (uvarint plen).length + (uvarint (head - plen)).length
        ≤ (writeAt (writeAt out (2 * i) (leBytes 2 pos)) pos (uvarint plen)).length := by omega
    have l2 := length_writeAt_of_le e2
    simp only [putVar_of_room (head - plen) e2, Option.bind_some]
    have e3 : pos + (uvarint plen).length + (uvarint (head - plen)).length + (slice img plen head).length
        ≤ (writeAt (writeAt (writeAt out (2 * i) (leBytes 2 pos)) pos (uvarint plen)) (pos + (uvarint plen).length)
            (uvarint (head - plen))).length := by omega
    have l3 := length_writeAt_of_le e3
    rw [putSlice, if_pos e3, Option.bind_some, putVar_of_room img.length (by omega)]
    refine ⟨_, rfl, ?_⟩
    rw [length_writeAt_of_le (by omega), l3, l2, l1, hl1]
  obtain ⟨o5, hhd, hl5⟩ := hhd
  -- the tail
  have htl : (img.drop (alignUp head 4)).length ≤ img.length - head := by
    have := le_alignUp head (show 0 < 4 by omega)
    rw [List.length_drop]
    omega
  have hne : ¬(img = [] ∨ ¬4 ∣ img.length) := by
    rw [not_or, not_not]
    refine ⟨?_, hdvd⟩
    rintro rfl
    rw [List.length_nil] at hle
    omega
  rw [encodeRec, if_neg hne, if_neg (by omega)]
  simp only [hhead, hhd, Option.bind_eq_bind, Option.bind_some]
  generalize hp5 : pos + (uvarint plen).length + (uvarint (head - plen)).length + (head - plen)
    + (uvarint img.length).length = p5
  generalize img.drop (alignUp head 4) = tail at htl
  obtain ⟨hlen, hmade⟩ :=
    tailBlock_spec hl (tailOf img0 head0) rawTails i tail (o5.drop (p5 + FIELD_MAX))
  rw [List.length_drop] at hlen
  have hF : FIELD_MAX = 3 := rfl
  have hl6 : (writeAt o5 (p5 + FIELD_MAX) (tailBlock lz4 (tailOf img0 head0) rawTails i tail
      (o5.drop (p5 + FIELD_MAX))).1).length = o5.length := length_writeAt_of_le (by omega)
  rw [encodeTail, if_neg (by omega)]
  simp only
  generalize (tailBlock lz4 (tailOf img0 head0) rawTails i tail (o5.drop (p5 + FIELD_MAX))).2
    = made at hmade ⊢
  generalize writeAt o5 (p5 + FIELD_MAX) (tailBlock lz4 (tailOf img0 head0) rawTails i tail
    (o5.drop (p5 + FIELD_MAX))).1 = o6 at hl6 ⊢
  rcases storedLen_cases made tail.length with heq | ⟨hlt, _⟩
  · have h4 := hshort (v := tail.length) (by omega)
    rw [heq, if_neg (lt_irrefl _), putVar_of_room tail.length (by omega)]
    simp only [Option.bind_eq_bind, Option.bind_some]
    have l7 : (writeAt o6 p5 (uvarint tail.length)).length = o5.length := by
      rw [length_writeAt_of_le (by omega), hl6]
    rw [putSlice, if_pos (by omega), Option.bind_some]
    refine ⟨_, _, rfl, ?_, by omega, by omega⟩
    rw [length_writeAt_of_le (by omega), l7, hl5]
  · generalize storedLen made tail.length = c at hlt ⊢
    have h4 := hshort (v := c) (by omega)
    rw [if_pos hlt, putVar_of_room c (by omega)]
    simp only [Option.bind_eq_bind, Option.bind_some]
    have l7 : (writeAt o6 p5 (uvarint c)).length = o5.length := by
      rw [length_writeAt_of_le (by omega), hl6]
    have hblk : (slice (writeAt o6 p5 (uvarint c)) (p5 + FIELD_MAX) (p5 + FIELD_MAX + c)).length ≤
      c := by
      rw [length_slice]
      omega
    refine ⟨_, _, rfl, ?_, by omega, by omega⟩
    rw [length_writeAt_of_le (by omega), l7, hl5]

/-! ## A group -/

/-- Where images laid end to end from `start` end. -/
def endsFrom : ℕ → List Bytes → List ℕ
  | _, [] => []
  | start, img :: imgs => (start + img.length) :: endsFrom (start + img.length) imgs

lemma length_endsFrom (imgs : List Bytes) : ∀ start, (endsFrom start imgs).length
    = imgs.length := by
  induction imgs with
  | nil => intro start; rfl
  | cons img imgs ih =>
      intro start
      rw [endsFrom, List.length_cons, ih, List.length_cons]

/-- A payload of `n` records holds record `i`, that of an image. -/
def CodedIn (lz4 : DictLz4) (payload : Bytes) (n : ℕ) (img0 : Bytes) (head0 i : ℕ) (img : Bytes) :
    Prop :=
  ∃ p head r, imageHeadLen img = some head ∧ CodedAs lz4 img0 head0 i img head r ∧ 4 ∣ img.length ∧
    2 * n ≤ p ∧ (i = 0 → p = 2 * n) ∧ p < 2 ^ 16 ∧ HasAt payload (2 * i) (leBytes 2 p) ∧
    HasAt payload p (codedBytes r) ∧ p + (codedBytes r).length ≤ payload.length

/-- **The loop writes every record**, and leaves what is in front of them. -/
lemma encodeRecs_coded {lz4 : DictLz4} (hl : lz4.Lossless) {imgs img0 : Bytes} {head0 : ℕ}
    {rawTails : Bool} (hhead0 : head0 ≤ img0.length) (rest : List Bytes) :
    ∀ {i start pos n : ℕ} {out out' : Bytes}, HasAt imgs start rest.flatten →
      start + rest.flatten.length ≤ imgs.length → (∀ img ∈ rest, img.length ≤ ZMAX_ULEN) →
      2 * (i + rest.length) ≤ pos → pos ≤ out.length →
      encodeRecs lz4 imgs img0 head0 (tailOf img0 head0) rawTails (endsFrom start rest) i start out
      pos = some (out', n) → out'.length = out.length ∧ pos ≤ n ∧ n ≤ out.length
        ∧ (∀ off x, HasAt out off x → off + x.length ≤ 2 * i ∨ 2 * (i + rest.length) ≤ off ∧ off + x.length ≤ pos →
            HasAt out' off x)
        ∧ ∀ k img, rest[k]? = some img → ∃ p head r, imageHeadLen img = some head
            ∧ CodedAs lz4 img0 head0 (i + k) img head r ∧ 4 ∣ img.length ∧ pos ≤ p ∧
            (k = 0 → p = pos) ∧ p < 2 ^ 16 ∧ HasAt out' (2 * (i + k)) (leBytes 2 p) ∧
            HasAt out' p (codedBytes r) ∧ p + (codedBytes r).length ≤ n := by
  induction rest with
  | nil =>
      intro i start pos n out out' _ _ _ _ hpos h
      rw [endsFrom, encodeRecs, Option.some.injEq, Prod.mk.injEq] at h
      obtain ⟨rfl, rfl⟩ := h
      exact ⟨rfl, le_refl _, hpos, fun _ _ hat _ => hat, by simp⟩
  | cons img rest ih =>
      intro i start pos n out out' hat hin hmost htab hpos h
      rw [List.flatten_cons, hasAt_append] at hat
      rw [List.flatten_cons, List.length_append] at hin
      rw [List.forall_mem_cons] at hmost
      rw [List.length_cons] at htab
      rw [endsFrom, encodeRecs] at h
      simp only [Option.bind_eq_bind, Option.bind_eq_some_iff] at h
      obtain ⟨img', himg, ⟨o1, p1⟩, h1, h⟩ := h
      obtain ⟨_, _, hsl⟩ := getRange_eq_some.mp himg
      obtain rfl : img = img' := hat.1.symm.trans hsl
      simp only at h
      obtain ⟨head, r, hhead, hcoded, hdvd, hoff, hlen1, hle1, rfl, hentry, hrec, hframe1⟩ :=
        encodeRec_coded hl hmost.1 (by omega) hpos hhead0 h1
      obtain ⟨hlen, hle, hn, hframe, hall⟩ := ih hat.2 (by omega) hmost.2 (by omega) (by omega) h
      refine ⟨by omega, by omega, by omega, ?_, ?_⟩
      · intro off x hx hoff
        rw [List.length_cons] at hoff
        exact hframe off x (hframe1 off x hx (by omega)) (by omega)
      · intro k img' hk
        cases k with
        | zero =>
            rw [List.getElem?_cons_zero, Option.some.injEq] at hk
            subst hk
            refine ⟨pos, head, r, hhead, hcoded, hdvd, le_refl _, fun _ => rfl, hoff, ?_, ?_, hle⟩
            · refine hframe _ _ hentry (Or.inl ?_)
              rw [length_leBytes]
              omega
            · exact hframe _ _ hrec (Or.inr ⟨by omega, le_refl _⟩)
        | succ k =>
            rw [List.getElem?_cons_succ] at hk
            obtain ⟨p, head', r', hhead', hcoded', hdvd', hp, _, hp', hentry', hrec', hle'⟩ := hall k img' hk
            rw [Nat.add_assoc, Nat.add_comm 1] at hcoded' hentry'
            exact ⟨p, head', r', hhead', hcoded', hdvd', by omega, by omega, hp', hentry', hrec', hle'⟩

/-- **The payload of a group holds the record of every image.** -/
lemma encodeRecordGroup_coded {lz4 : DictLz4} (hl : lz4.Lossless) {imgs : List Bytes}
    {out out' : Bytes} {n : ℕ} {rawTails : Bool} (hmost : ∀ img ∈ imgs, img.length ≤ ZMAX_ULEN)
    (h : encodeRecordGroup lz4 imgs.flatten (endsFrom 0 imgs) out rawTails = some (out', n)) :
    imgs ≠ [] ∧ imgs.length ≤ ZMAX_COUNT ∧ 2 * imgs.length ≤ n ∧ n ≤ out'.length
      ∧ ∃ img0 head0, imgs[0]? = some img0 ∧ imageHeadLen img0 = some head0
        ∧ ∀ i img, imgs[i]? = some img → CodedIn lz4 (out'.take n) imgs.length img0 head0 i img := by
  rw [encodeRecordGroup] at h
  split at h
  · simp at h
  rename_i hends
  rw [not_or, length_endsFrom] at hends
  cases imgs with
  | nil => exact absurd rfl hends.1
  | cons img0 rest =>
      simp only [Option.bind_eq_bind, Option.bind_eq_some_iff] at h
      obtain ⟨end0, hend0, img0', himg0, head0, hhead0, tail0, htail0, h⟩ := h
      rw [endsFrom, List.getElem?_cons_zero, Option.some.injEq] at hend0
      have himg : HasAt (img0 :: rest).flatten 0 (img0 :: rest).flatten := by
        rw [HasAt, Nat.zero_add, slice, List.take_length, List.drop_zero]
      obtain ⟨_, _, hsl0⟩ := getRange_eq_some.mp himg0
      obtain rfl : img0 = img0' := by
        rw [← hsl0, ← hend0]
        exact (hasAt_start img0 rest.flatten).symm
      obtain ⟨_, _, hslt⟩ := getRange_eq_some.mp htail0
      obtain rfl : tailOf img0 head0 = tail0 := by
        rw [← hslt, tailOf, slice, List.take_length]
      have hpos : 2 * (img0 :: rest).length ≤ out.length := by omega
      rw [length_endsFrom] at h
      obtain ⟨hlen, hle, hn, _, hall⟩ := encodeRecs_coded hl (imageHeadLen_le hhead0).2 (img0 :: rest) himg
        (by rw [Nat.zero_add]) hmost (by rw [Nat.zero_add]) hpos h
      refine ⟨by simp, by omega, hle, by omega, img0, head0, rfl, hhead0, ?_⟩
      intro i img hi
      obtain ⟨p, head, r, hhead, hcoded, hdvd, hp, hp0, hp', hentry, hrec, hend⟩ := hall i img hi
      obtain ⟨hlt, _⟩ := List.getElem?_eq_some_iff.mp hi
      rw [Nat.zero_add] at hcoded hentry
      refine ⟨p, head, r, hhead, hcoded, hdvd, hp, hp0, hp', hentry.take ?_, hrec.take hend, ?_⟩
      · rw [length_leBytes]
        omega
      · rw [List.length_take]
        omega

end Supdb

import Supdb.PageTrap

/-!
# The record coding on a machine

The readers of a record-coded payload, run over the words of a machine, are those of `RecordCoding`:
they read what those read, refuse what those refuse, and never trap.

* `getVarRun_eq`, `codedRecRun_eq` – a varint, and a record's fields.
* `decodeRecordIntoRun_eq` – an image written over a slot of its length is the image.
* **`decodeRecordRun_eq`**, **`decodeRecordGroupRun_eq`** – one record and a whole group.
-/

namespace Supdb

open StorageLib Run

namespace Zpages

lemma nextMultipleOf_eq {n a : ℕ} (h : alignUp n a < 2 ^ 64) :
    nextMultipleOf n a = ok (alignUp n a) := if_pos h

lemma leAt_eq {n pos : ℕ} {page : Bytes} (h : pos + n ≤ page.length) (hlen : page.length < 2 ^ 63) :
    leAt n page pos = ok (leNat (slice page pos (pos + n))) := by
  rw [leAt, addU_eq (by omega), ok_bind, cut_eq (by omega) h, ok_bind]

lemma leAt_half {pos : ℕ} {page : Bytes} (h : pos + 2 ≤ page.length) (hlen : page.length < 2 ^ 63) :
    leAt 2 page pos = ok (half page pos) :=
  leAt_eq h hlen

/-! ## Varints and fields -/

lemma okOr_bind_eq {α β : Type} {e : ZError} {x : Option α} {f : α → Run ZError β}
    {g : α → Option β}
    (h : ∀ a, x = some a → f a = okOr e (g a)) : (okOr e x >>= f) = okOr e (x >>= g) := by
  cases x with
  | none => rfl
  | some a => exact h a rfl

lemma getVarFromRun_eq {b : Bytes} (hlen : b.length < 2 ^ 63) (pos v shift : ℕ) :
    getVarFromRun b pos v shift = okOr REC_CUT (getVarFrom b pos v shift) := by
  induction hn : 35 - shift using Nat.strong_induction_on generalizing pos v shift with
  | _ n ih =>
      rw [getVarFromRun, getVarFrom]
      cases hx : b[pos]? with
      | none => rfl
      | some x =>
          have hpos : pos < b.length := (List.getElem?_eq_some_iff.mp hx).1
          rw [okOr_some, ok_bind, addU_eq (by omega), ok_bind]
          dsimp only
          by_cases hlast : x.toNat < 0x80
          · rw [if_pos hlast, if_pos hlast]
            rfl
          rw [if_neg hlast, if_neg hlast]
          by_cases hend : 28 < shift + 7
          · rw [if_pos hend, if_pos hend]
            rfl
          · rw [if_neg hend, if_neg hend, ih (35 - (shift + 7)) (by omega) (pos + 1) _ (shift + 7) rfl]

lemma getVarRun_eq {b : Bytes} (hlen : b.length < 2 ^ 63) (pos : ℕ) :
    getVarRun b pos = okOr REC_CUT (getVar b pos) :=
  getVarFromRun_eq hlen pos 0 0

/-- A varint is of five bytes at most, so of 35 bits. -/
lemma getVarFrom_bounds {b : Bytes} {pos v shift w stop : ℕ} (hv : v < 2 ^ shift) (hs : shift ≤ 28)
    (h : getVarFrom b pos v shift = some (w, stop)) : w < 2 ^ 35 ∧ stop ≤ b.length := by
  induction hn : 35 - shift using Nat.strong_induction_on generalizing pos v shift with
  | _ n ih =>
      rw [getVarFrom] at h
      cases hx : b[pos]? with
      | none =>
          rw [hx] at h
          simp at h
      | some x =>
          have hpos : pos < b.length := (List.getElem?_eq_some_iff.mp hx).1
          have hor : v ||| ((x.toNat &&& 0x7f) <<< shift) < 2 ^ (shift + 7) := by
            have hand : x.toNat &&& 0x7f ≤ 0x7f := Nat.and_le_right
            have hpow : 2 ^ (shift + 7) = 2 ^ shift * 2 ^ 7 := pow_add 2 shift 7
            refine Nat.or_lt_two_pow (by omega) ?_
            rw [Nat.shiftLeft_eq]
            calc (x.toNat &&& 0x7f) * 2 ^ shift ≤ 0x7f * 2 ^ shift := Nat.mul_le_mul_right _ hand
              _ < 2 ^ (shift + 7) := by omega
          rw [hx] at h
          dsimp only at h
          split at h
          · rw [Option.some.injEq, Prod.mk.injEq] at h
            obtain ⟨rfl, rfl⟩ := h
            refine ⟨lt_of_lt_of_le hor ?_, by omega⟩
            exact Nat.pow_le_pow_right (by omega) (by omega)
          split at h
          · simp at h
          · exact ih (35 - (shift + 7)) (by omega) hor (by omega) h rfl

lemma getVar_bounds {b : Bytes} {pos v stop : ℕ} (h : getVar b pos = some (v, stop)) :
    v < 2 ^ 35 ∧ stop ≤ b.length :=
  getVarFrom_bounds (by decide) (by decide) h

/-- Fields cut from a payload are no longer than the payload, and a prefix is a varint. -/
lemma codedFields_bounds {payload : Bytes} {pos : ℕ} {r : CodedRec}
    (h : codedFields payload pos = some r) :
    r.plen < 2 ^ 35 ∧ r.suffix.length ≤ payload.length ∧ r.tail.length ≤ payload.length := by
  simp only [codedFields, Option.bind_eq_bind, Option.bind_eq_some_iff, Option.some.injEq] at h
  obtain ⟨⟨plen, p1⟩, h1, ⟨slen, p2⟩, -, suffix, h3, ⟨ulen, p3⟩, -, ⟨clen, p4⟩, -, tail, h6, rfl⟩ :=
    h
  obtain ⟨-, hle, rfl⟩ := getRange_eq_some.mp h3
  obtain ⟨-, hle', rfl⟩ := getRange_eq_some.mp h6
  refine ⟨(getVar_bounds h1).1, ?_, ?_⟩
  · dsimp only
    rw [length_slice]
    omega
  · dsimp only
    rw [length_slice]
    omega

lemma codedFieldsRun_eq {payload : Bytes} (hlen : payload.length < 2 ^ 63) (pos : ℕ) :
    codedFieldsRun payload pos = okOr REC_CUT (codedFields payload pos) := by
  rw [codedFieldsRun, codedFields, getVarRun_eq hlen]
  refine okOr_bind_eq ?_
  rintro ⟨plen, p1⟩ h1
  dsimp only
  rw [getVarRun_eq hlen]
  refine okOr_bind_eq ?_
  rintro ⟨slen, p2⟩ h2
  have hb2 := getVar_bounds h2
  dsimp only
  rw [takeRun, addU_eq (by omega), ok_bind, bind_assoc]
  refine okOr_bind_eq ?_
  intro suffix h3
  rw [ok_bind]
  dsimp only
  rw [getVarRun_eq hlen]
  refine okOr_bind_eq ?_
  rintro ⟨ulen, p3⟩ h4
  dsimp only
  rw [getVarRun_eq hlen]
  refine okOr_bind_eq ?_
  rintro ⟨clen, p4⟩ h5
  have hb5 := getVar_bounds h5
  dsimp only
  rw [takeRun, addU_eq (by omega), ok_bind, bind_assoc]
  refine okOr_bind_eq ?_
  intro tail h6
  rfl

lemma tailAtRun_eq {r : CodedRec} (h : r.headLen < 2 ^ 63) : tailAtRun r = ok r.tailAt := by
  have hup := alignUp_lt r.headLen (by norm_num : 0 < 4)
  rw [CodedRec.headLen] at h hup
  rw [tailAtRun, addU_eq (by omega), ok_bind, nextMultipleOf_eq (by omega)]
  rfl

lemma codedRecRun_eq {payload : Bytes} (hlen : payload.length < 2 ^ 62) (count i : ℕ) :
    codedRecRun payload count i = ofExcept (codedRec payload count i) := by
  rw [codedRecRun, codedRec]
  by_cases hout : count ≤ i ∨ ZMAX_COUNT < count
  · rw [if_pos hout, if_pos (by omega)]
    rfl
  have hcount : count ≤ 256 := by
    rw [ZMAX_COUNT] at hout
    omega
  rw [if_neg hout, mulU_eq (by omega), ok_bind]
  by_cases hshort : payload.length < 2 * count
  · rw [if_pos hshort, if_pos (by omega)]
    rfl
  rw [if_neg hshort, if_neg (by omega), mulU_eq (by omega), ok_bind,
    leAt_half (by omega) (by omega), ok_bind]
  dsimp only
  by_cases hin : half payload (2 * i) < 2 * count
  · rw [if_pos hin, if_pos hin]
    rfl
  rw [if_neg hin, if_neg hin, codedFieldsRun_eq (by omega)]
  cases hr : codedFields payload (half payload (2 * i)) with
  | none => rfl
  | some r =>
      obtain ⟨hplen, hsuffix, htail⟩ := codedFields_bounds hr
      have hhead : r.headLen < 2 ^ 63 := by
        rw [CodedRec.headLen]
        omega
      have hsum : r.plen + r.suffix.length = r.headLen := rfl
      rw [okOr_some, ok_bind, checkFieldsRun, addU_eq (by omega), ok_bind, hsum]
      dsimp only
      by_cases h1 : r.headLen < 4 ∨ r.ulen = 0 ∨ ¬4 ∣ r.ulen ∨ ZMAX_ULEN < r.ulen
      · rw [if_pos h1, if_pos (by tauto)]
        rfl
      rw [if_neg h1, tailAtRun_eq hhead, ok_bind]
      by_cases h2 : r.ulen < r.tailAt
      · rw [if_pos h2, if_pos (by tauto)]
        rfl
      rw [if_neg h2, subU_eq (by omega), ok_bind]
      by_cases h3 : r.ulen - r.tailAt < r.tail.length
      · rw [if_pos h3, if_pos (by tauto)]
        rfl
      have hall : ¬(r.headLen < 4 ∨ r.ulen = 0 ∨ ¬4 ∣ r.ulen ∨ ZMAX_ULEN < r.ulen ∨ r.ulen < r.tailAt
          ∨ r.ulen - r.tailAt < r.tail.length) := by tauto
      rw [if_neg h3, if_neg hall]
      by_cases h4 : i = 0 ∧ (r.plen ≠ 0 ∨ r.tail.length ≠ r.ulen - r.tailAt)
      · rw [if_pos h4, if_pos h4]
        rfl
      · rw [if_neg h4, if_neg h4]
        rfl

lemma codedFirstRun_eq {payload : Bytes} (hlen : payload.length < 2 ^ 62) (count : ℕ) :
    codedFirstRun payload count = ofExcept (codedFirst payload count) := by
  rw [codedFirstRun, codedFirst, codedRecRun_eq hlen]
  exact ofExcept_bind_eq fun r _ => rfl

/-! ## Buffers -/

lemma grown_eq {buf : GroupBuf} {words : ℕ} (h : words < 2 ^ 60) :
    ∃ buf', buf.grown words = ok buf' ∧ 8 * words ≤ buf'.bytes.length := by
  rw [GroupBuf.grown]
  by_cases hs : buf.bytes.length / 8 < words
  · have hup := alignUp_lt words (by norm_num [ZPAGE] : 0 < ZPAGE / 8)
    have hle := le_alignUp words (by norm_num [ZPAGE] : 0 < ZPAGE / 8)
    have hpage : ZPAGE / 8 = 512 := rfl
    rw [if_pos hs, nextMultipleOf_eq (by omega)]
    refine ⟨_, rfl, ?_⟩
    dsimp only
    rw [List.length_replicate]
    omega
  · obtain ⟨k, hk⟩ := buf.whole
    rw [if_neg hs]
    exact ⟨buf, rfl, by omega⟩

lemma bytesForRun_eq (buf : GroupBuf) {n : ℕ} (h : n ≤ ZMAX_ULEN) :
    ∃ out, buf.bytesForRun n = ok out ∧ out.length = n := by
  rw [ZMAX_ULEN] at h
  have hceil : divCeil n 8 ≤ n + 8 ∧ n ≤ 8 * divCeil n 8 := by
    rw [divCeil]
    omega
  obtain ⟨buf', hbuf, hle⟩ := @grown_eq buf (divCeil n 8) (by omega)
  rw [GroupBuf.bytesForRun, hbuf, ok_bind, cut_eq (Nat.zero_le n) (by omega)]
  exact ⟨_, rfl, length_slice_of_le (by omega)⟩

lemma bytesWithSlackRun_eq (buf : GroupBuf) {n : ℕ} (h : n ≤ ZMAX_ULEN) :
    ∃ out, buf.bytesWithSlackRun n 64 = ok out ∧ n ≤ out.length := by
  rw [ZMAX_ULEN] at h
  have hceil : divCeil n 8 ≤ n + 8 ∧ n ≤ 8 * divCeil n 8 := by
    rw [divCeil]
    omega
  obtain ⟨buf', hbuf, hle⟩ := @grown_eq buf (divCeil n 8) (by omega)
  rw [GroupBuf.bytesWithSlackRun, hbuf, ok_bind, addU_eq (by omega), ok_bind,
    cut_eq (Nat.zero_le _) (min_le_left _ _)]
  refine ⟨_, rfl, ?_⟩
  rw [length_slice_of_le (min_le_left _ _)]
  omega

/-! ## Images -/

lemma writeAt_whole {out x : Bytes} (h : x.length = out.length) : writeAt out 0 x = x := by
  rw [writeAt_of_le (by omega), List.take_zero, List.nil_append, Nat.zero_add, h, List.drop_length,
    List.append_nil]

/-- **An image written over a slot of its length** is the image. -/
lemma decodeRecordIntoRun_eq (lz4 : DictLz4) {head0 tail0 out : Bytes} {r : CodedRec}
    (hlen : out.length = r.ulen) (hat : r.tailAt ≤ r.ulen) (hmost : r.ulen ≤ ZMAX_ULEN) :
    decodeRecordIntoRun lz4 head0 tail0 r out = ofExcept (decodeRecordInto lz4 head0 tail0 r) := by
  have hup : r.headLen ≤ r.tailAt := le_alignUp _ (by omega)
  have hhead : r.plen + r.suffix.length = r.headLen := rfl
  rw [ZMAX_ULEN] at hmost
  rw [decodeRecordIntoRun, decodeRecordInto, assert_eq hlen, ok_bind]
  by_cases hprefix : head0.length < r.plen
  · rw [if_pos hprefix, if_pos hprefix]
    rfl
  have hshared : slice head0 0 r.plen = head0.take r.plen := rfl
  have hsl : (head0.take r.plen).length = r.plen := by
    rw [List.length_take]
    omega
  rw [if_neg hprefix, if_neg hprefix, addU_eq (by omega), ok_bind,
    cut_eq (Nat.zero_le _) (by omega), ok_bind, hshared,
    copyTo_eq (Nat.zero_le _) (by omega) (by omega), ok_bind]
  set out1 := writeAt out 0 (head0.take r.plen) with h1
  have hl1 : out1.length = r.ulen := by rw [h1, length_writeAt_of_le (by omega), hlen]
  rw [hhead, copyTo_eq (by omega) (by omega) (by omega), ok_bind]
  have h2 : writeAt out1 r.plen r.suffix = writeAt out 0 (head0.take r.plen ++ r.suffix) := by
    have := writeAt_writeAt out 0 (x := head0.take r.plen) (y := r.suffix) (by omega)
    rw [hsl, Nat.zero_add] at this
    rw [h1, this]
  rw [h2]
  set front := head0.take r.plen ++ r.suffix with hfront
  have hfl : front.length = r.headLen := by rw [hfront, List.length_append, hsl, hhead]
  have hl2 : (writeAt out 0 front).length = r.ulen := by rw [length_writeAt_of_le (by omega), hlen]
  rw [tailAtRun_eq (by omega), ok_bind, cut_eq hup (by omega), ok_bind,
    length_slice_of_le (by omega),
    copyTo_eq hup (by omega) (by rw [List.length_replicate]), ok_bind]
  have h3 : writeAt (writeAt out 0 front) r.headLen (List.replicate (r.tailAt - r.headLen) 0)
      = writeAt out 0 (front ++ List.replicate (r.tailAt - r.headLen) 0) := by
    have := writeAt_writeAt out 0 (x := front) (y := List.replicate (r.tailAt - r.headLen) 0)
      (by rw [List.length_replicate]; omega)
    rwa [hfl, Nat.zero_add] at this
  rw [h3]
  set padded := front ++ List.replicate (r.tailAt - r.headLen) 0 with hpadded
  have hpl : padded.length = r.tailAt := by
    rw [hpadded, List.length_append, hfl, List.length_replicate]
    omega
  have hl3 : (writeAt out 0 padded).length = r.ulen := by rw [length_writeAt_of_le (by omega), hlen]
  -- a tail that fills the rest of the slot leaves the whole image in it
  have hfill : ∀ tail : Bytes, tail.length = r.ulen - r.tailAt →
      writeAt (writeAt out 0 padded) r.tailAt tail = padded ++ tail := by
    intro tail ht
    have := writeAt_writeAt out 0 (x := padded) (y := tail) (by omega)
    rw [hpl, Nat.zero_add] at this
    rw [this, writeAt_whole (by rw [List.length_append]; omega)]
  rw [subU_eq hat, ok_bind, hl3]
  dsimp only
  by_cases hraw : r.tail.length = r.ulen - r.tailAt
  · rw [if_pos hraw, if_pos hraw, copyTo_eq hat (by omega) hraw, hfill _ hraw]
    rfl
  rw [if_neg hraw, if_neg hraw, cut_eq hat (by omega), ok_bind, length_slice_of_le (by omega)]
  cases lz4.decompressIntoWithDict r.tail (r.ulen - r.tailAt) tail0 with
  | none => rfl
  | some tail =>
      dsimp only
      by_cases ht : tail.length ≠ r.ulen - r.tailAt
      · rw [if_pos ht, if_pos ht]
        rfl
      · rw [if_neg ht, if_neg ht, hfill _ (not_not.mp ht)]
        rfl

/-- **One record decoded** is the record coding's, whatever the buffer held. -/
theorem decodeRecordRun_eq (lz4 : DictLz4) {payload : Bytes} (hlen : payload.length < 2 ^ 62)
    (count i : ℕ)
    (buf : GroupBuf) : decodeRecordRun lz4 payload count i buf
    = ofExcept (decodeRecord lz4 payload count i) := by
  rw [decodeRecordRun, decodeRecord, codedFirstRun_eq hlen]
  refine ofExcept_bind_eq ?_
  rintro ⟨head0, tail0⟩ -
  dsimp only
  rw [codedRecRun_eq hlen]
  refine ofExcept_bind_eq ?_
  intro r hr
  obtain ⟨hat, hmost⟩ := codedRec_bounds hr
  obtain ⟨out, hout, hol⟩ := bytesForRun_eq buf hmost
  rw [hout, ok_bind, decodeRecordIntoRun_eq lz4 hol hat hmost]

/-- The loop over the records: what is decoded lies at the buffer's start. -/
lemma decodeRecsRun_eq (lz4 : DictLz4) {payload : Bytes} (hlen : payload.length < 2 ^ 62)
    {count ulen : ℕ}
    (hulen : ulen ≤ ZMAX_ULEN) {head0 tail0 : Bytes} (n : ℕ) : ∀ {i : ℕ} {done out : Bytes},
      out.length = ulen → done.length ≤ ulen →
      ∃ f : Bytes →
        Bytes, (∀ x, x.length = ulen → decodeRecs lz4 payload count ulen head0 tail0 n i done
        = .ok x → f x = x)
        ∧ decodeRecsRun lz4 payload count head0 tail0 n i done.length (writeAt out 0 done)
          = (ofExcept (decodeRecs lz4 payload count ulen head0 tail0 n i done) >>= fun x => ok (x.length, f x)) := by
  rw [ZMAX_ULEN] at hulen
  induction n with
  | zero =>
      intro i done out hol hdone
      refine ⟨fun x => writeAt out 0 x, ?_, ?_⟩
      · intro x hx _
        exact writeAt_whole (by omega)
      · rfl
  | succ n ih =>
      intro i done out hol hdone
      have hwl : (writeAt out 0 done).length = ulen := by rw [length_writeAt_of_le (by omega), hol]
      rw [decodeRecsRun, decodeRecs, codedRecRun_eq hlen]
      cases hr : codedRec payload count i with
      | error e => exact ⟨id, fun x _ _ => rfl, rfl⟩
      | ok r =>
          obtain ⟨hat, hmost⟩ := codedRec_bounds hr
          have hmost' := hmost
          rw [ZMAX_ULEN] at hmost'
          rw [ofExcept_ok, ok_bind, Flatindex.checked, if_pos (by omega), okOr_some, ok_bind]
          change ∃ f : Bytes →
            Bytes,
            (∀ x, x.length = ulen → (if ulen < done.length + r.ulen then _ else _) = _ → f x = x)
            ∧ _ = (Run.ofExcept (if ulen < done.length + r.ulen then _ else _) >>= _)
          by_cases hpast : ulen < done.length + r.ulen
          · have hslot : getRange (writeAt out 0 done) done.length (done.length + r.ulen) = none := if_neg (by omega)
            rw [hslot, if_pos hpast]
            exact ⟨id, fun x _ _ => rfl, rfl⟩
          have hslot : getRange (writeAt out 0 done) done.length (done.length + r.ulen)
              = some (slice (writeAt out 0 done) done.length (done.length + r.ulen)) :=
            getRange_eq_some.mpr ⟨by omega, by omega, rfl⟩
          rw [hslot, okOr_some, ok_bind, if_neg hpast,
            decodeRecordIntoRun_eq lz4 (by rw [length_slice_of_le (by omega)]; omega) hat hmost]
          cases himg : decodeRecordInto lz4 head0 tail0 r with
          | error e => exact ⟨id, fun x _ _ => rfl, rfl⟩
          | ok img =>
              have hil := length_decodeRecordInto hat himg
              have hnext : writeAt (writeAt out 0 done) done.length img = writeAt out 0 (done ++ img) := by
                have := writeAt_writeAt out 0 (x := done) (y := img) (by omega)
                rwa [Nat.zero_add] at this
              obtain ⟨f, hf, hrun⟩ := @ih (i + 1) (done ++ img) _ hol (by rw [List.length_append]; omega)
              rw [ofExcept_ok, ok_bind, hnext]
              rw [List.length_append, hil] at hrun
              exact ⟨f, hf, hrun⟩

/-- **A group decoded** is the record coding's, whatever the buffer held. -/
theorem decodeRecordGroupRun_eq (lz4 : DictLz4) {payload : Bytes} (hlen : payload.length < 2 ^ 62)
    (count : ℕ) {ulen : ℕ} (hulen : ulen ≤ ZMAX_ULEN) (buf : GroupBuf) :
    decodeRecordGroupRun lz4 payload count ulen buf
    = ofExcept (decodeRecordGroup lz4 payload count ulen) := by
  rw [decodeRecordGroupRun, decodeRecordGroup, codedFirstRun_eq hlen]
  refine ofExcept_bind_eq ?_
  rintro ⟨head0, tail0⟩ -
  dsimp only
  obtain ⟨out, hout, hol⟩ := bytesForRun_eq buf hulen
  obtain ⟨f, hf, hrun⟩ :=
    @decodeRecsRun_eq lz4 _ hlen _ _ hulen _ _ count 0 [] _ hol (Nat.zero_le _)
  have hstart : writeAt out 0 [] = out := by rw [writeAt_of_le (by simp)]; simp
  rw [List.length_nil, hstart] at hrun
  rw [hout, ok_bind, hrun]
  cases hx : decodeRecs lz4 payload count ulen head0 tail0 count 0 [] with
  | error e => rfl
  | ok x =>
      rw [ofExcept_ok, ok_bind, ok_bind]
      change (if x.length ≠ ulen then err _ else ok (f x)) = ofExcept (if x.length ≠ ulen then _ else _)
      by_cases hne : x.length ≠ ulen
      · rw [if_pos hne, if_pos hne]
        rfl
      · rw [if_neg hne, if_neg hne, hf x (not_not.mp hne) hx]
        rfl

end Zpages

end Supdb

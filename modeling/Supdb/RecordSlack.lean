import Supdb.Record

/-!
# Records written for the slack

A record added to a section in place is serialised on its own, in the full form, before a slot that
points at it is published.  The redo log holds the same bytes, and the log's reader copies them back
out.

* `FlatIndex.encodeRecord` – the bytes of a record for the slack.
* `FlatIndex.decodeRecord` – the reader of the redo log.
* **`FlatIndex.decodeRecord_encodeRecord`** – a record comes back exactly where its extents number
  less than `COMPACT`.

The extent count's top bit is the compact form's flag.  The encoder lets a count use it (its limit
is the word's); the reader then takes the record for a compact one, which has one extent.
-/

namespace Supdb

open StorageLib

namespace FlatIndex

/-- `encode_record`: a record in the full form, where its two lengths fit their words. -/
def encodeRecord (key : Bytes) (exts : List Ext) : Option Bytes :=
  if 65535 < key.length ∨ 65535 < exts.length then none
  else some (recordHead key exts.length ++ exts.flatMap extBytes)

/-- The loop of `decode_record`: `n` extents from `p` on. -/
def readExts (rec : Bytes) : ℕ → ℕ → Option (List Ext)
  | 0, _ => some []
  | n + 1, p => do
      let b ← getRange rec p (p + EXT_BYTES)
      let exts ← readExts rec n (p + EXT_BYTES)
      some (extOf b :: exts)

/-- `decode_record`, of a record that is not compact. -/
def decodeFull (rec key : Bytes) (klen n : ℕ) : Option (Bytes × List Ext) :=
  (readExts rec n (alignUp (4 + klen) REC_ALIGN)).map (fun exts => (key, exts))

/-- `decode_record`. -/
def decodeRecord (rec : Bytes) : Option (Bytes × List Ext) := do
  let klen ← readWord 2 rec 0
  let n ← readWord 2 rec 2
  let key ← getRange rec 4 (4 + klen)
  if n &&& COMPACT ≠ 0 then (parseRecord 0 rec 0).map (fun r => (key, r.2.1))
  else decodeFull rec key klen n

/-! ## The head -/

section Head

variable {key post : Bytes} {n : ℕ}

lemma recordHead_split : recordHead key n ++ post = leBytes 2 key.length ++ (leBytes 2 n ++ (key ++
    (padding (4 + key.length) REC_ALIGN ++ post))) := by
  simp only [recordHead, List.append_assoc]

lemma readWord_klen (hk : key.length ≤ 65535) : readWord 2 (recordHead key n ++ post) 0
    = some key.length := by
  have h :
      readWord 2
      ([] ++
      (leBytes 2 key.length ++
      (leBytes 2 n ++ (key ++ (padding (4 + key.length) REC_ALIGN ++ post))))) 0
      = some key.length := readWord_append_mid rfl (by omega)
  rw [recordHead_split]
  exact h

lemma readWord_count (hn : n ≤ 65535) : readWord 2 (recordHead key n ++ post) 2 = some n := by
  rw [recordHead_split]
  exact readWord_append_mid (by simp) (by omega)

lemma getRange_key : getRange (recordHead key n ++ post) 4 (4 + key.length) = some key := by
  rw [recordHead_split, ← List.append_assoc]
  exact getRange_append_mid (by simp) (by simp)

end Head

/-! ## The extents -/

/-- The extents are read back from where they were laid. -/
lemma readExts_flatMap {exts : List Ext} (hfits : ∀ e ∈ exts, e.Fits) : ∀ (pre : Bytes) (p : ℕ),
    p = pre.length → readExts (pre ++ exts.flatMap extBytes) exts.length p = some exts := by
  induction exts with
  | nil => exact fun _ _ _ => rfl
  | cons e exts ih =>
      intro pre p hp
      have hfirst : extOf (extBytes e) = e := by
        have := extOf_extBytes (hfits e List.mem_cons_self) []
        rwa [List.append_nil] at this
      have hget : getRange (pre ++ (extBytes e ++ exts.flatMap extBytes)) p (p + EXT_BYTES) = some (extBytes e) :=
        getRange_append_mid hp (by rw [hp, length_extBytes])
      have hrest := ih (fun e' he => hfits e' (List.mem_cons_of_mem e he)) (pre ++ extBytes e)
        (p + EXT_BYTES) (by rw [List.length_append, length_extBytes, hp])
      rw [List.append_assoc] at hrest
      rw [List.flatMap_cons, List.length_cons, readExts, hget, some_bind_eq, hrest, some_bind_eq, hfirst]

/-! ## The flag in the count -/

/-- What is parsed where the count has the flag is one extent. -/
lemma parseRecordTail_of_flag {addr : ℕ} {header rest : Bytes} {r : List Ext × Bytes × ℕ}
    (hn : leNat (slice header 2 4) &&& COMPACT ≠ 0)
    (h : parseRecordTail addr header rest = some r) : r.1.length = 1 := by
  simp only [parseRecordTail, if_pos hn] at h
  by_cases hone : leNat (slice header 2 4) ≠ COMPACT
  · rw [if_pos hone] at h
    exact absurd h (Option.some_ne_none r).symm
  · rw [if_neg hone] at h
    obtain ⟨b, -, h⟩ := Option.bind_eq_some_iff.mp h
    obtain ⟨tail, -, h⟩ := Option.bind_eq_some_iff.mp h
    obtain ⟨e, -, h⟩ := Option.bind_eq_some_iff.mp h
    rw [Option.some.injEq] at h
    rw [← h, List.length_singleton]

/-- The flag is set in every count from `COMPACT` on that its word holds. -/
lemma flag_of_le {n : ℕ} (hlo : COMPACT ≤ n) (hhi : n ≤ 65535) : n &&& COMPACT ≠ 0 := by
  have h15 : COMPACT = 2 ^ 15 := by norm_num [COMPACT]
  rw [h15] at hlo ⊢
  rw [and_two_pow_ne_zero]
  omega

/-- A record whose extents fill the count's flag is read as one extent, or not at all. -/
lemma length_of_flag {key : Bytes} {exts : List Ext} (hk : key.length ≤ 65535)
    (hlo : COMPACT ≤ exts.length) (hhi : exts.length ≤ 65535) {r : Bytes × List Ext}
    (h : decodeRecord (recordHead key exts.length ++ exts.flatMap extBytes) = some r) : r.2.length
    = 1 := by
  have hflag := flag_of_le hlo hhi
  rw [decodeRecord, readWord_klen hk, some_bind_eq, readWord_count hhi, some_bind_eq, getRange_key,
    some_bind_eq, if_pos hflag, Option.map_eq_some_iff] at h
  obtain ⟨parsed, hparsed, rfl⟩ := h
  rw [parseRecord, readWord_klen hk, some_bind_eq] at hparsed
  obtain ⟨header, hheader, hparsed⟩ := Option.bind_eq_some_iff.mp hparsed
  obtain ⟨k, -, hparsed⟩ := Option.bind_eq_some_iff.mp hparsed
  obtain ⟨rest, -, hparsed⟩ := Option.bind_eq_some_iff.mp hparsed
  obtain ⟨tail, htail, hparsed⟩ := Option.bind_eq_some_iff.mp hparsed
  have hcount : leNat (slice header 2 4) = exts.length := by
    have hwords : getRange ([] ++ ((leBytes 2 key.length ++ leBytes 2 exts.length) ++ (key ++
        (padding (4 + key.length) REC_ALIGN ++ exts.flatMap extBytes)))) 0 4
        = some (leBytes 2 key.length ++ leBytes 2 exts.length) := getRange_append_mid rfl (by simp)
    rw [recordHead_split, ← List.append_assoc (leBytes 2 key.length)] at hheader
    have hsame := hwords.symm.trans hheader
    rw [Option.some.injEq] at hsame
    have hword : slice (leBytes 2 key.length ++ (leBytes 2 exts.length ++ [])) 2 4
      = leBytes 2 exts.length :=
      slice_append_mid (by simp) (by simp)
    rw [← hsame, ← List.append_nil (leBytes 2 exts.length), hword]
    exact leNat_leBytes (by omega)
  have hlen := parseRecordTail_of_flag (by rw [hcount]; exact hflag) htail
  simp only [Option.some.injEq] at hparsed
  rw [← hparsed]
  exact hlen

/-- A record with fewer extents comes back. -/
lemma decodeRecord_of_lt {key : Bytes} {exts : List Ext} (hk : key.length ≤ 65535)
    (hcount : exts.length < COMPACT) (hfits : ∀ e ∈ exts, e.Fits) :
    decodeRecord (recordHead key exts.length ++ exts.flatMap extBytes) = some (key, exts) := by
  have hhi : exts.length ≤ 65535 := by
    have : COMPACT = 32768 := rfl
    omega
  rw [decodeRecord, readWord_klen hk, some_bind_eq, readWord_count hhi, some_bind_eq, getRange_key,
    some_bind_eq, if_neg (and_COMPACT_of_lt hcount), decodeFull,
    readExts_flatMap hfits _ _ (length_recordHead key exts.length).symm, Option.map_some]

/-- **A record written for the slack decodes back** to its key and its extents exactly where these
number less than `COMPACT`. -/
theorem decodeRecord_encodeRecord (key : Bytes) (exts : List Ext) (hfits : ∀ e ∈ exts, e.Fits)
    (rec : Bytes)
    (henc : encodeRecord key exts = some rec) : decodeRecord rec = some (key, exts) ↔
    exts.length < COMPACT := by
  rw [encodeRecord] at henc
  split_ifs at henc with hlong
  rw [Option.some.injEq] at henc
  obtain ⟨hk, hn⟩ := not_or.mp hlong
  subst henc
  constructor
  · intro hdec
    by_contra hge
    have hone := length_of_flag (not_lt.mp hk) (not_lt.mp hge) (not_lt.mp hn) hdec
    have hmany : COMPACT ≤ 1 := hone ▸ not_lt.mp hge
    exact absurd hmany (by decide)
  · exact fun hcount => decodeRecord_of_lt (not_lt.mp hk) hcount hfits

/-- A record of two extents. -/
theorem decodeRecord_encodeRecord_two :
    let exts : List Ext := [⟨3, 8, 16, 12, 2⟩, ⟨4, 0, 8, 0, 1⟩]
    ∃ rec, encodeRecord [7] exts = some rec ∧
      (decodeRecord rec = some ([7], exts) ↔ exts.length < COMPACT) := by
  intro exts
  have hfits : ∀ e ∈ exts, e.Fits := by
    intro e he
    rcases List.mem_cons.mp he with rfl | he
    · exact ⟨by norm_num, by norm_num, by norm_num, by norm_num, by norm_num⟩
    · rw [List.mem_singleton.mp he]
      exact ⟨by norm_num, by norm_num, by norm_num, by norm_num, by norm_num⟩
  have henc : encodeRecord [7] exts
    = some (recordHead [7] exts.length ++ exts.flatMap extBytes) := by
    rw [encodeRecord, if_neg (by decide)]
  exact ⟨_, henc, decodeRecord_encodeRecord [7] exts hfits _ henc⟩

/-- A record of 32,768 extents is written, and does not come back. -/
theorem encodeRecord_lost : ∃ rec, encodeRecord [7] (List.replicate COMPACT ⟨3, 0, 8, 0, 1⟩)
    = some rec ∧ decodeRecord rec ≠ some ([7], List.replicate COMPACT ⟨3, 0, 8, 0, 1⟩) := by
  set exts : List Ext := List.replicate COMPACT ⟨3, 0, 8, 0, 1⟩
  have hlen : exts.length = COMPACT := List.length_replicate
  refine ⟨recordHead [7] exts.length ++ exts.flatMap extBytes, ?_, fun hdec => ?_⟩
  · rw [encodeRecord, if_neg (by rw [hlen]; decide)]
  · have hone : exts.length = 1 := length_of_flag (by decide) hlen.ge (by rw [hlen]; decide) hdec
    rw [hlen] at hone
    exact absurd hone (by decide)

end FlatIndex

end Supdb

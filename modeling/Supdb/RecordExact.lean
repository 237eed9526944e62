import Supdb.RecordWrite
import Supdb.PageExact
import Supdb.Direct

/-!
# The record coding is the decoded group

What the coding holds of a group is what a reader of the decoded group finds: its images, all or
one, where a key falls, and whether the group is the one its page names.

* `codedRec_eq` – a record's fields are read back.
* `decodeRecordInto_eq` – and decode to the image.
* `cmpCodedKey_eq`, `seek_eq` – a key compares with a coded record as with the image's key.
* `recordKeyNext_of_parseRecord` – the walk that searches steps as the one that parses.
* `check_iff` – the two checks agree.
* **`coding_exact`** – all of it, for every group whose images are no longer than a group may be.
-/

namespace Supdb

open StorageLib

/-! ## Keys -/

/-- Keys compare as byte strings. -/
lemma keyCmp_eq (a b : Bytes) : keyCmp a b = cmp a b := by
  rw [keyCmp]
  by_cases h : 16 ≤ a.length ∧ 16 ≤ b.length
  · obtain ⟨ha, hb⟩ := h
    rw [if_pos ⟨ha, hb⟩]
    have hword : ∀ {a : Bytes}, 16 ≤ a.length → a = slice a 0 8 ++ (slice a 8 16 ++ a.drop 16) := by
      intro a ha
      have h1 : slice a 8 16 ++ a.drop 16 = a.drop 8 := by
        rw [slice_eq_take_drop, show a.drop 16 = (a.drop 8).drop 8 by rw [List.drop_drop], List.take_append_drop]
      rw [h1, slice, List.drop_zero, List.take_append_drop]
    have hlen : ∀ {a : Bytes} {i j : ℕ}, 16 ≤ a.length → j ≤ 16 → (slice a i j).length = j - i := by
      intro a i j ha hj
      exact length_slice_of_le (by omega)
    have h8 : (slice a 0 8).length = (slice b 0 8).length := by
      rw [hlen ha (by omega), hlen hb (by omega)]
    have h16 : (slice a 8 16).length = (slice b 8 16).length := by
      rw [hlen ha (by omega), hlen hb (by omega)]
    conv_rhs => rw [hword ha, hword hb]
    rw [cmp_beNat h8, cmp_beNat h16, cmp_append h8, cmp_append h16]
    cases cmp (slice a 0 8) (slice b 0 8) with
    | lt => rfl
    | gt => rfl
    | eq =>
        cases cmp (slice a 8 16) (slice b 8 16) with
        | lt => rfl
        | gt => rfl
        | eq => rfl
  · rw [if_neg h]

/-- The key of a coded record compares as the key assembled. -/
lemma cmpCodedKey_eq {head0 key : Bytes} {r : CodedRec} (hplen : r.plen ≤ head0.length) :
    cmpCodedKey head0 r key = cmp ((head0.take r.plen ++ r.suffix).drop 4) key := by
  have hkey : (head0.take r.plen ++ r.suffix).drop 4 = slice head0 (min r.plen 4) r.plen ++
    r.suffix.drop (4 - r.plen) := by
    have htl : (head0.take r.plen).length = r.plen := by rw [List.length_take]; omega
    rw [List.drop_append, htl, slice]
    rcases Nat.lt_or_ge r.plen 4 with h | h
    · have h4 : (head0.take r.plen).drop 4 = [] := List.drop_of_length_le (by omega)
      have hp : (head0.take r.plen).drop r.plen = [] := List.drop_of_length_le (by omega)
      rw [Nat.min_eq_left (by omega), h4, hp]
    · rw [Nat.min_eq_right h]
  rw [cmpCodedKey, hkey]
  generalize slice head0 (min r.plen 4) r.plen = a
  generalize r.suffix.drop (4 - r.plen) = b
  rcases Nat.lt_or_ge key.length a.length with h | h
  · rw [Nat.min_eq_right (by omega), List.take_length]
    have hsplit : a ++ b = a.take key.length ++ (a.drop key.length ++ b) := by
      rw [← List.append_assoc, List.take_append_drop]
    have hlen : (a.take key.length).length = key.length := by rw [List.length_take]; omega
    have hnil := cmp_append hlen (a.drop key.length ++ b) []
    rw [List.append_nil, ← hsplit] at hnil
    rw [hnil]
    cases cmp (a.take key.length) key with
    | lt => rfl
    | gt => rfl
    | eq =>
        rw [Ordering.eq_then]
        dsimp only
        rw [if_pos h]
        symm
        apply cmp_of_gt
        obtain ⟨x, xs, hx⟩ := List.exists_cons_of_ne_nil (l := a.drop key.length ++ b) (by
          intro hc
          have := congrArg List.length hc
          rw [List.length_append, List.length_drop, List.length_nil] at this
          omega)
        rw [hx]
        exact nil_lt_cons x xs
  · rw [Nat.min_eq_left h, List.take_length]
    have hsplit := cmp_append (a := a) (b := key.take a.length)
      (by rw [List.length_take]; omega) b (key.drop a.length)
    rw [List.take_append_drop] at hsplit
    rw [hsplit]
    cases cmp a (key.take a.length) with
    | lt => rfl
    | gt => rfl
    | eq =>
        rw [Ordering.eq_then]
        dsimp only
        rw [if_neg (Nat.not_lt.mpr h)]

/-! ## Fields -/

lemma alignUp_le_of_dvd {n m : ℕ} (h : n ≤ m) (hd : 4 ∣ m) : alignUp n 4 ≤ m := by
  rw [alignUp]
  omega

section Coded

variable {lz4 : DictLz4} {payload img0 img : Bytes} {n count head0 i : ℕ}

/-- **A record's fields are read back.** -/
lemma codedRec_eq (h : CodedIn lz4 payload n img0 head0 i img) (hi : i < count) (hcount : count ≤ n)
    (hn : n ≤ ZMAX_COUNT) (hmost : img.length ≤ ZMAX_ULEN) :
    ∃ head r, imageHeadLen img = some head ∧ CodedAs lz4 img0 head0 i img head r ∧ r.headLen = head
      ∧ alignUp head 4 ≤ img.length ∧ codedRec payload count i = .ok r := by
  obtain ⟨p, head, r, hhead, hcoded, hdvd, hp, _, hp', hentry, hrec, hend⟩ := h
  obtain ⟨hfour, hle⟩ := imageHeadLen_le hhead
  have hal := alignUp_le_of_dvd hle hdvd
  have hsuf : r.suffix.length = head - r.plen := by
    rw [hcoded.suffix]
    exact length_slice_of_le hle
  have hplen := hcoded.plen
  have hheadLen : r.headLen = head := by
    rw [CodedRec.headLen, hsuf]
    omega
  have hulen := hcoded.ulen
  have htail : r.tail.length ≤ img.length - alignUp head 4 := by
    have hl : (tailOf img head).length = img.length - alignUp head 4 := by
      rw [tailOf, List.length_drop]
    rcases hcoded.tail with ht | ⟨ht, _⟩
    · rw [ht, hl]
    · omega
  rw [ZMAX_ULEN] at hmost
  refine ⟨head, r, hhead, hcoded, hheadLen, hal, ?_⟩
  have hfields : codedFields payload p = some r := by
    rw [codedBytes, hasAt_append, hasAt_append, hasAt_append, hasAt_append, hasAt_append] at hrec
    simp only [List.length_append, ← Nat.add_assoc] at hrec
    obtain ⟨⟨⟨⟨⟨h1, h2⟩, h3⟩, h4⟩, h5⟩, h6⟩ := hrec
    rw [codedBytes] at hend
    simp only [List.length_append, ← Nat.add_assoc] at hend
    rw [codedFields, getVar_eq (by omega) h1]
    simp only [Option.bind_eq_bind, Option.bind_some]
    rw [getVar_eq (by omega) h2]
    simp only [Option.bind_some]
    rw [getRange_eq_some.mpr ⟨by omega, by omega, h3⟩]
    simp only [Option.bind_some]
    rw [getVar_eq (by omega) h4]
    simp only [Option.bind_some]
    rw [getVar_eq (by omega) h5]
    simp only [Option.bind_some]
    rw [getRange_eq_some.mpr ⟨by omega, by omega, h6⟩]
    rfl
  have hhalf : half payload (2 * i) = p := (half_eq_iff (by omega) hp').mpr hentry
  rw [codedRec, if_neg (by omega), hhalf]
  simp only
  rw [if_neg (by omega), hfields]
  simp only
  rw [if_neg ?_, if_neg ?_]
  · rintro ⟨h0, hbad⟩
    obtain ⟨hz, ht⟩ := hcoded.first h0
    rw [CodedRec.tailAt, hheadLen, hulen, hz, ht, tailOf, List.length_drop] at hbad
    omega
  · rw [CodedRec.tailAt, hheadLen, hulen, ZMAX_ULEN]
    omega

/-- **A record decodes to its image.** -/
lemma decodeRecordInto_eq {head : ℕ} {r : CodedRec} (hhead : imageHeadLen img = some head)
    (hc : CodedAs lz4 img0 head0 i img head r) (hlen : r.headLen = head)
    (hhead0 : head0 ≤ img0.length)
    (hzero : HasAt img head (List.replicate (alignUp head 4 - head) 0)) :
    decodeRecordInto lz4 (img0.take head0) (tailOf img0 head0) r = .ok img := by
  have hle := (imageHeadLen_le hhead).2
  have hup := le_alignUp head (show 0 < 4 by omega)
  have hfront : (img0.take head0).take r.plen ++ r.suffix ++ List.replicate (r.tailAt - r.headLen) 0
      = img.take (alignUp head 4) := by
    rw [HasAt, List.length_replicate, Nat.add_sub_cancel' hup] at hzero
    rw [List.take_take, Nat.min_eq_left hc.plen.2, ← hc.shared, hc.suffix, CodedRec.tailAt,
      hlen, ← hzero]
    have h1 : img.take r.plen ++ slice img r.plen head = img.take head := by
      have := slice_append_slice img (Nat.zero_le r.plen) hc.plen.1
      simpa [slice] using this
    have h2 : img.take head ++ slice img head (alignUp head 4) = img.take (alignUp head 4) := by
      have := slice_append_slice img (Nat.zero_le head) hup
      simpa [slice] using this
    rw [h1, h2]
  have hwant : r.ulen - r.tailAt = (tailOf img head).length := by
    rw [hc.ulen, CodedRec.tailAt, hlen, tailOf, List.length_drop]
  have hjoin : img.take (alignUp head 4) ++ tailOf img head = img := List.take_append_drop _ _
  rw [decodeRecordInto, if_neg (by rw [List.length_take]; have := hc.plen.2; omega)]
  simp only
  rw [hfront, hwant]
  rcases hc.tail with ht | ⟨hlt, hback⟩
  · rw [ht, if_pos rfl, hjoin]
  · rw [if_neg (by omega), hback]
    simp only
    rw [if_neg (by simp), hjoin]

end Coded

/-! ## Records in a decoded group -/

/-- **The walk that searches steps as the one that parses.** -/
lemma recordKeyNext_of_parseRecord {buf : Bytes} {off : ℕ} {r : ParsedRecord}
    (h : parseRecord 0 buf off = some r)
    (hlen : off + r.2.2.2 ≤ buf.length) : recordKeyNext buf off = some (r.1, off + r.2.2.2) := by
  have hparse := h
  simp only [parseRecord, Option.bind_eq_bind, Option.bind_eq_some_iff] at h
  obtain ⟨klen, hklen, header, hheader, key, hkey, rest, hrest, ⟨exts, tail, used⟩, htail, hr⟩ := h
  obtain ⟨_, hin, hhead⟩ := getRange_eq_some.mp hheader
  have hhlen : header.length = 4 := by
    rw [← hhead, length_slice_of_le hin]
    omega
  have hn : readWord 2 buf (off + 2) = some (leNat (slice header 2 4)) := by
    have hsub : getRange header 2 4 = some (slice header 2 4) :=
      getRange_eq_some.mpr ⟨by omega, by omega, rfl⟩
    rw [readWord, Nat.add_assoc, getRange_getRange hheader hsub]
    rfl
  rw [recordKeyNext, if_neg (by omega), hklen]
  simp only [Option.bind_eq_bind, Option.bind_some]
  rw [hn]
  simp only [Option.bind_some]
  by_cases hc : leNat (slice header 2 4) = COMPACT
  · rw [parseRecordTail] at htail
    simp only [hc, Option.bind_eq_bind] at htail
    rw [if_pos (by decide)] at htail
    simp only [ne_eq, not_true_eq_false, if_false, Option.bind_eq_some_iff] at htail
    obtain ⟨hd, hhd, tl, htl, e, _, hused⟩ := htail
    simp only [Option.some.injEq, Prod.mk.injEq] at hused
    obtain ⟨_, _, rfl⟩ := hused
    have hword : getRange rest 0 2 = some (hd.take 2) := by
      obtain ⟨h1, h2, h3⟩ := getRange_eq_some.mp hhd
      refine getRange_eq_some.mpr ⟨by omega, by omega, ?_⟩
      rw [← h3, slice, slice, List.drop_zero, List.drop_zero, List.take_take]
      rfl
    have hrun : readWord 2 buf (off + alignUp (4 + klen) REC_ALIGN) = some (leNat (hd.take 2)) := by
      have := getRange_getRange hrest hword
      rw [Nat.add_zero] at this
      rw [readWord, this]
      rfl
    simp only [Option.some.injEq] at hr
    subst hr
    have hnext : recordLenCompact klen (leNat (hd.take 2)) = alignUp (off + alignUp (4 + klen) REC_ALIGN +
        (4 + leNat (hd.take 2)) - off) REC_ALIGN := by
      have h4 : alignUp (4 + leNat (hd.take 2)) REC_ALIGN = 4 + alignUp (leNat (hd.take 2)) REC_ALIGN :=
        alignUp_add (by norm_num [REC_ALIGN]) (by norm_num [REC_ALIGN])
      rw [recordLenCompact, Nat.add_assoc off, Nat.add_sub_cancel_left,
        alignUp_add (by norm_num [REC_ALIGN]) (dvd_alignUp _ _), h4, Nat.add_assoc]
    rw [if_pos hc, hkey]
    simp only [Option.bind_some]
    rw [hrun]
    simp only [Option.bind_some]
    rw [hnext, if_pos hlen]
  · rw [if_neg hc, hparse]
    simp only [Option.bind_some]
    rw [if_pos hlen]

/-- A record is parsed where it lies behind whole words as it is on its own. -/
lemma parseRecord_append_left {pre buf : Bytes} (hpre : 4 ∣ pre.length) :
    parseRecord 0 (pre ++ buf) pre.length = parseRecord 0 buf 0 := by
  have htail : ∀ {a b : ℕ} (header rest : Bytes), a % 4 = b % 4 →
      parseRecordTail a header rest = parseRecordTail b header rest := by
    intro a b header rest hab
    simp only [parseRecordTail, hab]
  have hget := getRange_append_right pre buf
  rw [parseRecord, parseRecord, readWord, readWord]
  simp only [Nat.add_assoc, Nat.zero_add]
  have h0 := hget 0 2
  rw [Nat.add_zero] at h0
  rw [h0]
  congr 1
  funext klen
  have h1 := hget 0 4
  rw [Nat.add_zero] at h1
  rw [h1]
  congr 1
  funext header
  rw [hget 4 (4 + klen)]
  congr 1
  funext key
  rw [List.length_append, hget]
  congr 1
  funext rest
  rw [htail (b := alignUp (4 + klen) REC_ALIGN) header rest (by omega)]
  congr 1
  funext t
  rw [Nat.add_sub_cancel_left, Nat.sub_zero]

/-- The key of an image. -/
def imgKey (img : Bytes) : Bytes := ((parseRecord 0 img 0).map Prod.fst).getD []

/-- A record's image: the bytes its record spans, with zeros between its key and its tail. -/
structure RecordImage (img : Bytes) : Prop where
  parse : ∃ exts tail, parseRecord 0 img 0 = some (imgKey img, exts, tail, img.length)
  zeros : ∀ head, imageHeadLen img = some head →
    HasAt img head (List.replicate (alignUp head 4 - head) 0)

lemma RecordImage.key {img : Bytes} (h : RecordImage img) {head : ℕ}
    (hhead : imageHeadLen img = some head) : imgKey img = slice img 4 head := by
  obtain ⟨exts, tail, hp⟩ := h.parse
  simp only [parseRecord, Option.bind_eq_bind, Option.bind_eq_some_iff] at hp
  obtain ⟨klen, hklen, header, _, key, hkey, rest, _, ⟨e, t, used⟩, _, hr⟩ := hp
  rw [imageHeadLen, hklen, Option.bind_eq_bind, Option.bind_some] at hhead
  split at hhead
  · rw [Option.some.injEq] at hhead
    obtain ⟨_, _, hsl⟩ := getRange_eq_some.mp hkey
    simp only [Option.some.injEq, Prod.mk.injEq] at hr
    rw [← hr.1, ← hsl, ← hhead, Nat.zero_add]
  · simp at hhead

lemma RecordImage.dvd {img : Bytes} (h : RecordImage img) : 4 ∣ img.length := by
  obtain ⟨exts, tail, hp⟩ := h.parse
  simp only [parseRecord, Option.bind_eq_bind, Option.bind_eq_some_iff] at hp
  obtain ⟨klen, _, header, _, key, _, rest, _, ⟨e, t, used⟩, _, hr⟩ := hp
  simp only [Option.some.injEq, Prod.mk.injEq] at hr
  rw [← hr.2.2.2]
  exact dvd_alignUp _ _

/-- The record of an image, in a group. -/
lemma RecordImage.parse_in {img : Bytes} (h : RecordImage img) {pre : Bytes} (post : Bytes)
    (hpre : 4 ∣ pre.length) :
    ∃ exts tail, parseRecord 0 (pre ++ (img ++ post)) pre.length
    = some (imgKey img, exts, tail, img.length) := by
  obtain ⟨exts, tail, hp⟩ := h.parse
  exact ⟨exts, tail, by rw [parseRecord_append_left hpre]; exact parseRecord_append hp⟩

lemma RecordImage.next_in {img : Bytes} (h : RecordImage img) (pre post : Bytes)
    (hpre : 4 ∣ pre.length) :
    recordKeyNext (pre ++ (img ++ post)) pre.length
    = some (imgKey img, pre.length + img.length) := by
  obtain ⟨exts, tail, hp⟩ := h.parse_in post hpre
  exact recordKeyNext_of_parseRecord hp (by simp only [List.length_append]; omega)

section Written

variable {key tail : Bytes} {exts : List Ext} {compact : Bool}

lemma recordBytes_head (key tail : Bytes) (exts : List Ext) (compact : Bool) : ∃ n rest,
    recordBytes key exts tail compact = leBytes 2 key.length ++ (leBytes 2 n ++ (key ++
      (List.replicate (alignUp (4 + key.length) 4 - (4 + key.length)) 0 ++ rest))) := by
  rw [recordBytes]
  split
  · refine ⟨COMPACT, exts.flatMap compactHeader ++ (tail ++ padding tail.length REC_ALIGN), ?_⟩
    rw [recordHead, padding]
    simp only [List.append_assoc, REC_ALIGN]
  · refine ⟨exts.length, exts.flatMap extBytes ++ (tail ++ padding tail.length REC_ALIGN), ?_⟩
    rw [recordHead, padding]
    simp only [List.append_assoc, REC_ALIGN]

lemma imageHeadLen_recordBytes (hk : key.length ≤ 65535) :
    imageHeadLen (recordBytes key exts tail compact) = some (4 + key.length) := by
  obtain ⟨n, rest, hb⟩ := recordBytes_head key tail exts compact
  have hw : readWord 2 ([] ++ (leBytes 2 key.length ++ (leBytes 2 n ++ (key ++
      (List.replicate (alignUp (4 + key.length) 4 - (4 + key.length)) 0 ++ rest))))) 0
      = some key.length :=
    readWord_append_mid rfl (by norm_num; omega)
  rw [List.nil_append, ← hb] at hw
  rw [imageHeadLen, hw]
  simp only [Option.bind_eq_bind, Option.bind_some]
  rw [if_pos]
  rw [hb]
  simp only [List.length_append, length_leBytes]
  omega

/-- What the segment writer writes is an image. -/
lemma recordImage_recordBytes (hok : RecordOk key exts tail) :
    RecordImage (recordBytes key exts tail compact) := by
  have hp : parseRecord 0 ([] ++ (recordBytes key exts tail compact ++ [])) 0 = _ :=
    parseRecord_recordBytes rfl hok (by norm_num)
  rw [List.nil_append, List.append_nil] at hp
  have hkey : imgKey (recordBytes key exts tail compact) = key := by
    rw [imgKey, hp]
    rfl
  refine ⟨⟨exts, tail, by rw [hkey]; exact hp⟩, ?_⟩
  intro head hhead
  rw [imageHeadLen_recordBytes hok.klen, Option.some.injEq] at hhead
  subst hhead
  obtain ⟨n, rest, hb⟩ := recordBytes_head key tail exts compact
  generalize recordBytes key exts tail compact = img at hb
  have hself : HasAt img 0 (leBytes 2 key.length ++ (leBytes 2 n ++ (key ++
      (List.replicate (alignUp (4 + key.length) 4 - (4 + key.length)) 0 ++ rest)))) := by
    rw [← hb, HasAt, Nat.zero_add, slice, List.take_length, List.drop_zero]
  rw [hasAt_append, hasAt_append, hasAt_append, hasAt_append] at hself
  simp only [length_leBytes, Nat.zero_add, Nat.reduceAdd] at hself
  exact hself.2.2.2.1

end Written

/-! ## The group -/

/-- A payload that holds the records of images. -/
structure CodedGroup (lz4 : DictLz4) (payload : Bytes) (imgs : List Bytes) (img0 : Bytes)
    (head0 : ℕ) : Prop where
  first : imgs[0]? = some img0
  head : imageHeadLen img0 = some head0
  count : imgs.length ≤ ZMAX_COUNT
  image : ∀ img ∈ imgs, RecordImage img
  most : ∀ img ∈ imgs, img.length ≤ ZMAX_ULEN
  coded : ∀ i img, imgs[i]? = some img → CodedIn lz4 payload imgs.length img0 head0 i img

section Group

variable {lz4 : DictLz4} {payload img0 : Bytes} {imgs : List Bytes} {head0 count : ℕ}

/-- What a reader makes of record `i`. -/
lemma CodedGroup.rec_eq (h : CodedGroup lz4 payload imgs img0 head0) {i : ℕ} {img : Bytes}
    (hi : imgs[i]? = some img) (hlt : i < count) (hcount : count ≤ imgs.length) :
    ∃ r, codedRec payload count i = .ok r ∧ r.ulen = img.length ∧
        (i = 0 → r.suffix = img0.take head0 ∧ r.tail = tailOf img0 head0)
      ∧ decodeRecordInto lz4 (img0.take head0) (tailOf img0 head0) r = .ok img
      ∧ codedKeyInto (img0.take head0) r = some (imgKey img)
      ∧ ∀ key, cmpCodedKey (img0.take head0) r key = cmp (imgKey img) key := by
  have hmem := List.mem_of_getElem? hi
  obtain ⟨head, r, hhead, hc, hlen, hal, hr⟩ :=
    codedRec_eq (h.coded i img hi) hlt hcount h.count (h.most img hmem)
  have hhead0 := (imageHeadLen_le h.head).2
  have hle := (imageHeadLen_le hhead).2
  have hplen : r.plen ≤ (img0.take head0).length := by
    rw [List.length_take]
    have := hc.plen
    omega
  have hkey : ((img0.take head0).take r.plen ++ r.suffix).drop 4 = imgKey img := by
    have hjoin := slice_append_slice img (Nat.zero_le r.plen) hc.plen.1
    rw [List.take_take, Nat.min_eq_left hc.plen.2, ← hc.shared, hc.suffix,
      (h.image img hmem).key hhead]
    rw [slice, List.drop_zero, slice, slice, List.drop_zero] at hjoin
    rw [slice, hjoin, slice]
  refine ⟨r, hr, hc.ulen, ?_, ?_, ?_, ?_⟩
  · rintro rfl
    obtain ⟨hz, ht⟩ := hc.first rfl
    have himg := h.first
    rw [hi, Option.some.injEq] at himg
    subst himg
    have hh := h.head
    rw [hhead, Option.some.injEq] at hh
    subst hh
    exact ⟨by rw [hc.suffix, hz, slice, List.drop_zero], ht⟩
  · exact decodeRecordInto_eq hhead hc hlen hhead0 ((h.image img hmem).zeros head hhead)
  · rw [codedKeyInto, if_neg (by omega), hkey]
  · intro key
    rw [cmpCodedKey_eq hplen, hkey]

/-- Record 0, for any count of records up to the group's. -/
lemma CodedGroup.first_eq (h : CodedGroup lz4 payload imgs img0 head0) (hpos : 0 < count)
    (hcount : count ≤ imgs.length) : codedFirst payload count
    = .ok (img0.take head0, tailOf img0 head0) := by
  obtain ⟨r, hr, _, h0, _⟩ := h.rec_eq h.first hpos hcount
  rw [codedFirst, hr]
  simp only [bind, Except.bind]
  rw [(h0 rfl).1, (h0 rfl).2]

/-- For more records than the group's there is no record 0: it lies in what would be the table. -/
lemma CodedGroup.count_le (h : CodedGroup lz4 payload imgs img0 head0) {x : Bytes × Bytes}
    (hx : codedFirst payload count = .ok x) : 0 < count ∧ count ≤ imgs.length := by
  rw [codedFirst, except_bind_eq_ok] at hx
  obtain ⟨r, hr, _⟩ := hx
  rw [codedRec] at hr
  split at hr
  · simp at hr
  rename_i hin
  refine ⟨by omega, ?_⟩
  by_contra hgt
  obtain ⟨p, head, r', _, _, _, hp, hp0, hp', hentry, _, hend⟩ := h.coded 0 img0 h.first
  have hhalf : half payload (2 * 0) = p := (half_eq_iff (by omega) hp').mpr hentry
  rw [hhalf] at hr
  simp only at hr
  rw [if_pos (by have := hp0 rfl; omega)] at hr
  simp at hr

/-- `rest` is the group's images from `i` on, some of them. -/
def ImagesFrom (imgs : List Bytes) (i : ℕ) (rest : List Bytes) : Prop :=
  ∀ k img, rest[k]? = some img → imgs[i + k]? = some img

lemma ImagesFrom.tail {i : ℕ} {img : Bytes} {rest : List Bytes}
    (h : ImagesFrom imgs i (img :: rest)) : ImagesFrom imgs (i + 1) rest := by
  intro k x hk
  have := h (k + 1) x (by rwa [List.getElem?_cons_succ])
  rwa [← Nat.add_assoc, Nat.add_right_comm] at this

lemma imagesFrom_take (imgs : List Bytes) (m : ℕ) : ImagesFrom imgs 0 (imgs.take m) := by
  intro k img hk
  rw [Nat.zero_add]
  rw [List.getElem?_take] at hk
  split at hk
  · exact hk
  · simp at hk

/-- The records decoded one behind the other, as far as there is room for them. -/
lemma CodedGroup.decodeRecs_eq (h : CodedGroup lz4 payload imgs img0 head0) (ulen : ℕ)
    (hcount : count ≤ imgs.length)
    (rest : List Bytes) : ∀ (i : ℕ) (done : Bytes), ImagesFrom imgs i rest →
      i + rest.length = count →
      done.length ≤ ulen → decodeRecs lz4 payload count ulen (img0.take head0) (tailOf img0 head0) rest.length i done
        = if done.length + rest.flatten.length ≤ ulen then .ok (done ++ rest.flatten) else .error .decodedLen := by
  induction rest with
  | nil =>
      intro i done _ _ hdone
      rw [List.length_nil, decodeRecs, if_pos (by simpa using hdone), List.flatten_nil, List.append_nil]
  | cons img rest ih =>
      intro i done himg hi hdone
      rw [List.length_cons] at hi
      obtain ⟨r, hr, hulen, _, hdec, _⟩ := h.rec_eq (himg 0 img rfl) (by omega) hcount
      rw [Nat.add_zero] at hr
      rw [List.length_cons, decodeRecs, hr]
      simp only [bind, Except.bind]
      rw [hulen, hdec, List.flatten_cons, List.length_append, ← Nat.add_assoc]
      simp only
      split
      · rw [if_neg (by omega)]
      · rename_i hroom
        rw [ih _ _ himg.tail (by omega) (by rw [List.length_append]; omega), List.length_append, List.append_assoc]

/-- **The decoded group**, for any number of records the directory may name. -/
lemma CodedGroup.decode_iff (h : CodedGroup lz4 payload imgs img0 head0) {ulen : ℕ} {dec : Bytes} :
    decodeRecordGroup lz4 payload count ulen = .ok dec ↔ 0 < count ∧ count ≤ imgs.length
      ∧ dec = (imgs.take count).flatten ∧ ulen = (imgs.take count).flatten.length := by
  have hlen : count ≤ imgs.length → (imgs.take count).length = count := by
    intro hc
    rw [List.length_take]
    omega
  constructor
  · intro hd
    rw [decodeRecordGroup, except_bind_eq_ok] at hd
    obtain ⟨⟨x, y⟩, hx, hd⟩ := hd
    obtain ⟨hpos, hle⟩ := h.count_le hx
    rw [h.first_eq hpos hle, Except.ok.injEq, Prod.mk.injEq] at hx
    obtain ⟨rfl, rfl⟩ := hx
    simp only at hd
    have hdec := h.decodeRecs_eq ulen hle (imgs.take count) 0 [] (imagesFrom_take imgs count)
      (by rw [hlen hle, Nat.zero_add]) (Nat.zero_le _)
    rw [hlen hle, List.length_nil, Nat.zero_add, List.nil_append] at hdec
    rw [hdec] at hd
    split at hd
    · simp only [bind, Except.bind] at hd
      split at hd
      · simp at hd
      · rename_i hu
        rw [Except.ok.injEq] at hd
        exact ⟨hpos, hle, hd.symm, by omega⟩
    · simp [bind, Except.bind] at hd
  · rintro ⟨hpos, hle, rfl, rfl⟩
    have hdec := h.decodeRecs_eq (imgs.take count).flatten.length hle (imgs.take count) 0 []
      (imagesFrom_take imgs count) (by rw [hlen hle, Nat.zero_add]) (Nat.zero_le _)
    rw [hlen hle, List.length_nil, Nat.zero_add, List.nil_append, if_pos (le_refl _)] at hdec
    rw [decodeRecordGroup, h.first_eq hpos hle]
    simp only [bind, Except.bind]
    rw [hdec]
    simp

/-- **One record decoded alone.** -/
lemma CodedGroup.decode_one (h : CodedGroup lz4 payload imgs img0 head0) {i : ℕ} {img : Bytes}
    (hi : imgs[i]? = some img) : decodeRecord lz4 payload imgs.length i = .ok img := by
  obtain ⟨hlt, _⟩ := List.getElem?_eq_some_iff.mp hi
  obtain ⟨r, hr, _, _, hdec, _⟩ := h.rec_eq hi hlt (le_refl _)
  rw [decodeRecord, h.first_eq (by omega) (le_refl _)]
  simp only [bind, Except.bind]
  rw [hr]
  exact hdec

/-- **The two searches** stop at the same record. -/
lemma CodedGroup.seekFrom_eq (h : CodedGroup lz4 payload imgs img0 head0) (key : Bytes)
    (rest : List Bytes) :
    ∀ (i : ℕ) (pre : Bytes), ImagesFrom imgs i rest → i + rest.length = imgs.length →
      4 ∣ pre.length → ∃ p q, seekFrom (pre ++ rest.flatten) key rest.length i pre.length = .ok p
        ∧ recordSeekFrom payload imgs.length (img0.take head0) key rest.length i = .ok q
        ∧ q.index = p.index ∧ q.found = p.found := by
  induction rest with
  | nil =>
      intro i pre _ _ _
      exact ⟨_, _, rfl, rfl, rfl, rfl⟩
  | cons img rest ih =>
      intro i pre himg hi hpre
      rw [List.length_cons] at hi
      have hget := himg 0 img rfl
      rw [Nat.add_zero] at hget
      have himage := h.image img (List.mem_of_getElem? hget)
      obtain ⟨r, hr, _, _, _, _, hcmp⟩ := h.rec_eq hget (by omega) (le_refl _)
      have hnext : recordKeyNext (pre ++ (img :: rest).flatten) pre.length
          = some (imgKey img, pre.length + img.length) := himage.next_in _ _ hpre
      rw [List.length_cons, seekFrom, hnext, recordSeekFrom, hr]
      simp only [bind, Except.bind]
      rw [keyCmp_eq, hcmp]
      cases cmp (imgKey img) key with
      | eq => exact ⟨_, _, rfl, rfl, rfl, rfl⟩
      | gt => exact ⟨_, _, rfl, rfl, rfl, rfl⟩
      | lt =>
          have hrest := ih (i + 1) (pre ++ img) himg.tail (by omega) (by
            rw [List.length_append]
            exact hpre.add himage.dvd)
          rw [List.append_assoc, List.length_append] at hrest
          exact hrest

/-- A key falls where it falls in the decoded group. -/
lemma CodedGroup.seek_eq (h : CodedGroup lz4 payload imgs img0 head0) (key : Bytes) :
    ∃ p q, groupSeek imgs.flatten imgs.length key = .ok p ∧
      recordGroupSeek payload imgs.length key = .ok q ∧ q.index = p.index ∧ q.found = p.found := by
  have hpos : 0 < imgs.length := (List.getElem?_eq_some_iff.mp h.first).1
  have himg : ImagesFrom imgs 0 imgs := by
    intro k img hk
    rwa [Nat.zero_add]
  rw [groupSeek, recordGroupSeek, h.first_eq hpos (le_refl _)]
  simp only [bind, Except.bind]
  split
  · -- nothing is below the empty key
    rename_i hkey
    subst hkey
    obtain ⟨rest, rfl⟩ : ∃ rest, imgs = img0 :: rest := by
      have hf := h.first
      cases imgs with
      | nil => simp at hf
      | cons x rest =>
          rw [List.getElem?_cons_zero, Option.some.injEq] at hf
          exact ⟨rest, by rw [hf]⟩
    have hnext := (h.image img0 (by simp)).next_in [] rest.flatten (by simp)
    rw [List.nil_append, List.length_nil, Nat.zero_add, ← List.flatten_cons] at hnext
    obtain ⟨r, hr, _, _, _, _, hcmp⟩ := h.rec_eq h.first hpos (le_refl _)
    rw [if_neg (by omega), hnext, List.length_cons, recordSeekFrom, ← List.length_cons (a := img0),
      hr]
    simp only [bind, Except.bind]
    rw [hcmp]
    rcases List.eq_nil_or_concat (imgKey img0) with hk | ⟨l, b, hk⟩
    · rw [hk, cmp_of_eq]
      exact ⟨_, _, rfl, rfl, rfl, by simp⟩
    · have hne : imgKey img0 ≠ [] := by rw [hk]; simp
      obtain ⟨x, xs, hx⟩ := List.exists_cons_of_ne_nil hne
      rw [hx, cmp_of_gt (nil_lt_cons x xs)]
      exact ⟨_, _, rfl, rfl, rfl, by simp⟩
  · have := h.seekFrom_eq key imgs 0 [] himg (Nat.zero_add _) (by simp)
    rwa [List.nil_append, List.length_nil] at this

/-- **The two walks** accept the same records: where both keys are checked, and to the same length.
-/
lemma CodedGroup.walk_iff (h : CodedGroup lz4 payload imgs img0 head0)
    (hcount : count ≤ imgs.length) (first below : Option Bytes) (rest : List Bytes) :
    ∀ (i ulen : ℕ) (pre prev : Bytes) (prev' : Option Bytes), ImagesFrom imgs i rest →
      i + rest.length = count → 4 ∣ pre.length → prev' = (if i = 0 then none else some prev) →
      (∀ off, walkFrom (pre ++ rest.flatten) first below rest.length i prev' pre.length = .ok off →
        off = pre.length + rest.flatten.length ∧
          checkCodedFrom payload count (img0.take head0) first below rest.length i
          prev ulen = .ok (ulen + rest.flatten.length))
      ∧ ∀ u, checkCodedFrom payload count (img0.take head0) first below rest.length i prev ulen = .ok u →
        u = ulen + rest.flatten.length ∧ walkFrom (pre ++ rest.flatten) first below rest.length i prev' pre.length
          = .ok (pre.length + rest.flatten.length) := by
  induction rest with
  | nil =>
      intro i ulen pre prev prev' _ _ _ _
      constructor
      · intro off ho
        rw [List.length_nil, walkFrom, Except.ok.injEq] at ho
        exact ⟨by simp [ho], by simp [checkCodedFrom]⟩
      · intro u hu
        rw [List.length_nil, checkCodedFrom, Except.ok.injEq] at hu
        exact ⟨by simp [hu], by simp [walkFrom]⟩
  | cons img rest ih =>
      intro i ulen pre prev prev' himg hi hpre hprev
      rw [List.length_cons] at hi
      have hget := himg 0 img rfl
      rw [Nat.add_zero] at hget
      have himage := h.image img (List.mem_of_getElem? hget)
      obtain ⟨r, hr, hulen, _, _, hkey, _⟩ := h.rec_eq hget (by omega) hcount
      obtain ⟨exts, tail, hparse⟩ := himage.parse_in rest.flatten hpre
      rw [← List.flatten_cons] at hparse
      have hrest := ih (i + 1) (ulen + img.length) (pre ++ img) (imgKey img)
        (some (imgKey img)) himg.tail (by omega) (by
          rw [List.length_append]
          exact hpre.add himage.dvd) (by rw [if_neg (Nat.succ_ne_zero i)])
      rw [List.append_assoc, ← List.flatten_cons, List.length_append] at hrest
      have hasc : (∃ p ∈ prev', imgKey img ≤ p) ↔ 0 < i ∧ keyCmp prev (imgKey img) ≠ .lt := by
        rw [keyCmp_eq, Ne, cmp_eq_lt, not_lt, hprev]
        split
        · rename_i h0
          simp [h0]
        · rename_i h0
          simp [Nat.pos_of_ne_zero h0]
      rw [List.length_cons, walkFrom, hparse, checkCodedFrom, hr]
      simp only [bind, Except.bind, hkey, hasc, hulen]
      rw [List.flatten_cons, List.length_append, ← Nat.add_assoc, ← Nat.add_assoc, ← List.flatten_cons]
      split
      · simp
      split
      · simp
      split
      · simp
      exact hrest

end Group

/-! ## The whole -/

/-- A group of records: their images, the keys ascending. -/
structure RecordGroup (imgs : List Bytes) : Prop where
  ne : imgs ≠ []
  count : imgs.length ≤ ZMAX_COUNT
  image : ∀ img ∈ imgs, RecordImage img
  keys : (imgs.map imgKey).Pairwise (· < ·)
  words : ∀ img ∈ imgs, 4 ∣ img.length

lemma CodedGroup.check_iff {lz4 : DictLz4} {payload img0 : Bytes} {imgs : List Bytes} {head0 : ℕ}
    (h : CodedGroup lz4 payload imgs img0 head0) (v : PageView) (j : ℕ) (entry : FenceEntry) :
    checkCodedGroup payload v j entry = .ok () ↔ ∃ g dec, v.group j = some g
      ∧ decodeRecordGroup lz4 payload g.count g.ulen = .ok dec ∧
      checkGroup dec v j entry = .ok () := by
  rw [checkCodedGroup]
  cases hg : v.group j with
  | none => simp
  | some g =>
      have hwalk : ∀ first : Option Bytes, g.count ≤ imgs.length →
          (∀ off, walkFrom (imgs.take g.count).flatten first (v.key (j + 1)) g.count 0 none 0 = .ok off →
            off = (imgs.take g.count).flatten.length ∧ checkCodedFrom payload g.count (img0.take head0) first
              (v.key (j + 1)) g.count 0 [] 0 = .ok (imgs.take g.count).flatten.length)
          ∧ ∀ u, checkCodedFrom payload g.count (img0.take head0) first (v.key (j + 1)) g.count 0 [] 0 = .ok u →
            u = (imgs.take g.count).flatten.length ∧
              walkFrom (imgs.take g.count).flatten first (v.key (j + 1)) g.count 0
              none 0 = .ok (imgs.take g.count).flatten.length := by
        intro first hle
        have hlen : (imgs.take g.count).length = g.count := by
          rw [List.length_take]
          omega
        have := h.walk_iff hle first (v.key (j + 1)) (imgs.take g.count) 0 0 [] [] none
          (imagesFrom_take imgs g.count) (by rw [hlen, Nat.zero_add]) (by simp) rfl
        rwa [hlen, List.nil_append, List.length_nil, Nat.zero_add] at this
      simp only
      constructor
      · intro hc
        rw [except_bind_eq_ok] at hc
        obtain ⟨⟨x, y⟩, hx, hc⟩ := hc
        obtain ⟨hpos, hle⟩ := h.count_le hx
        rw [h.first_eq hpos hle, Except.ok.injEq, Prod.mk.injEq] at hx
        obtain ⟨rfl, rfl⟩ := hx
        rw [except_bind_eq_ok] at hc
        obtain ⟨u, hu, hc⟩ := hc
        obtain ⟨rfl, hw⟩ := (hwalk _ hle).2 u hu
        split at hc
        · simp at hc
        rename_i hulen
        rw [not_not] at hulen
        refine ⟨g, _, rfl, h.decode_iff.mpr ⟨hpos, hle, rfl, hulen.symm⟩, ?_⟩
        rw [checkGroup, hg]
        simp only
        rw [walkGroup, hw]
        simp [bind, Except.bind]
      · rintro ⟨g', dec, hg', hdec, hc⟩
        rw [Option.some.injEq] at hg'
        subst hg'
        obtain ⟨hpos, hle, rfl, hulen⟩ := h.decode_iff.mp hdec
        rw [checkGroup, hg] at hc
        simp only at hc
        rw [walkGroup, except_bind_eq_ok] at hc
        obtain ⟨off, hoff, _⟩ := hc
        obtain ⟨_, hu⟩ := (hwalk _ hle).1 off hoff
        rw [h.first_eq hpos hle]
        simp only [bind, Except.bind]
        rw [hu, hulen]
        simp

/-- **The record coding is the decoded group.**  Of a group whose images are no longer than a group
may be, what `encode_record_group` writes decodes to the images end to end and to each alone; a key
falls where it falls in the decoded group; and the check of the coded group accepts what the check
of the decoded group accepts, whatever the page's directory says of it. -/
theorem coding_exact (lz4 : DictLz4) (hl : lz4.Lossless) (imgs : List Bytes) (hg : RecordGroup imgs)
    (hmost : ∀ img ∈ imgs, img.length ≤ ZMAX_ULEN) (out out' : Bytes) (n : ℕ) (rawTails : Bool)
    (h : encodeRecordGroup lz4 imgs.flatten (endsFrom 0 imgs) out rawTails = some (out', n)) :
    decodeRecordGroup lz4 (out'.take n) imgs.length imgs.flatten.length = .ok imgs.flatten
      ∧ (∀ i img, imgs[i]? = some img → decodeRecord lz4 (out'.take n) imgs.length i = .ok img)
      ∧ (∀ key, ∃ p q, groupSeek imgs.flatten imgs.length key = .ok p
          ∧ recordGroupSeek (out'.take n) imgs.length key = .ok q ∧ q.index = p.index ∧ q.found = p.found)
      ∧ (∀ v j entry, checkCodedGroup (out'.take n) v j entry = .ok () ↔ ∃ g dec, v.group j = some g
          ∧ decodeRecordGroup lz4 (out'.take n) g.count g.ulen = .ok dec ∧ checkGroup dec v j entry = .ok ())
      ∧ ∀ v j entry g, v.group j = some g → g.count = imgs.length → g.ulen = imgs.flatten.length →
          (checkCodedGroup (out'.take n) v j entry = .ok () ↔ checkGroup imgs.flatten v j entry = .ok ()) := by
  obtain ⟨hne, hcount, _, _, img0, head0, h0, hhead0, hall⟩ := encodeRecordGroup_coded hl hmost h
  have hc : CodedGroup lz4 (out'.take n) imgs img0 head0 :=
    ⟨h0, hhead0, hcount, hg.image, hmost, hall⟩
  have hdec : decodeRecordGroup lz4 (out'.take n) imgs.length imgs.flatten.length
    = .ok imgs.flatten :=
    hc.decode_iff.mpr ⟨List.length_pos_iff.mpr hne,
      le_refl _, by rw [List.take_length], by rw [List.take_length]⟩
  refine ⟨hdec, fun i img hi => hc.decode_one hi, hc.seek_eq, hc.check_iff, ?_⟩
  intro v j entry g hgj hgc hgu
  rw [hc.check_iff]
  constructor
  · rintro ⟨g', dec, hg', hd, hcheck⟩
    rw [hgj, Option.some.injEq] at hg'
    subst hg'
    rw [hgc, hgu, hdec, Except.ok.injEq] at hd
    rwa [hd]
  · intro hcheck
    exact ⟨g, _, hgj, by rw [hgc, hgu]; exact hdec, hcheck⟩

/-! ## An image too long -/

/-- A compressor that never makes a block. -/
def noLz4 : DictLz4 := ⟨fun _ room _ => (room, none), fun _ _ _ => none⟩

lemma noLz4_lossless : noLz4.Lossless where
  room := fun _ _ _ => rfl
  fits := by simp [noLz4]
  back := by simp [noLz4]

/-- The record of a key, one byte its value. -/
def byteImage (key : Bytes) : Bytes := recordOf true (key, [7])

lemma codedRec_bounds {payload : Bytes} {count i : ℕ} {r : CodedRec}
    (h : codedRec payload count i = .ok r) : r.tailAt ≤ r.ulen ∧ r.ulen ≤ ZMAX_ULEN := by
  rw [codedRec] at h
  split at h
  · simp at h
  simp only at h
  split at h
  · simp at h
  split at h
  · simp at h
  split at h
  · simp at h
  rename_i hchecks
  split at h
  · simp at h
  rw [Except.ok.injEq] at h
  subst h
  omega

lemma length_decodeRecordInto {lz4 : DictLz4} {head0 tail0 img : Bytes} {r : CodedRec}
    (hat : r.tailAt ≤ r.ulen)
    (h : decodeRecordInto lz4 head0 tail0 r = .ok img) : img.length = r.ulen := by
  have hup : r.headLen ≤ r.tailAt := le_alignUp _ (by omega)
  rw [decodeRecordInto] at h
  split at h
  · simp at h
  rename_i hp
  have hfront : (head0.take r.plen ++ r.suffix ++ List.replicate (r.tailAt - r.headLen) 0).length
    = r.tailAt := by
    rw [CodedRec.headLen] at *
    simp only [List.length_append, List.length_take, List.length_replicate]
    omega
  simp only at h
  split at h
  · rename_i hw
    rw [Except.ok.injEq] at h
    rw [← h, List.length_append, hfront]
    omega
  split at h
  · simp at h
  split at h
  · simp at h
  rename_i hw
  rw [Except.ok.injEq] at h
  rw [← h, List.length_append, hfront]
  omega

/-- What decodes as a group of one record is no longer than a group may be. -/
lemma length_decode_one {lz4 : DictLz4} {payload dec : Bytes} {ulen : ℕ}
    (h : decodeRecordGroup lz4 payload 1 ulen = .ok dec) : dec.length ≤ ZMAX_ULEN := by
  rw [decodeRecordGroup, except_bind_eq_ok] at h
  obtain ⟨⟨head0, tail0⟩, _, h⟩ := h
  rw [except_bind_eq_ok] at h
  obtain ⟨out, hout, h⟩ := h
  split at h
  · simp at h
  rw [Except.ok.injEq] at h
  subst h
  rw [decodeRecs, except_bind_eq_ok] at hout
  obtain ⟨r, hr, hout⟩ := hout
  split at hout
  · simp at hout
  rw [except_bind_eq_ok] at hout
  obtain ⟨img, himg, hout⟩ := hout
  rw [decodeRecs, List.nil_append, Except.ok.injEq] at hout
  subst hout
  obtain ⟨hat, hle⟩ := codedRec_bounds hr
  rw [length_decodeRecordInto hat himg]
  exact hle

/-- The codec on a tail that is its dictionary's twenty bytes: a match of fifteen, and five as they
are. -/
def matchLz4 : DictLz4 where
  compressIntoWithDict tail room dict :=
    if tail = dict ∧ tail.length = 20 ∧ 9 ≤ room.length then
      (writeAt room 0 ([0x0b, 20, 0, 0x50] ++ tail.drop 15), some 9)
    else (room, none)
  decompressIntoWithDict block room dict :=
    if block.take 4 = [0x0b, 20, 0, 0x50] ∧ dict.length = 20 ∧
      20 ≤ room then some (dict.take 15 ++ block.drop 4)
    else none

lemma matchLz4_lossless : matchLz4.Lossless where
  room tail room dict := by
    dsimp only [matchLz4]
    split_ifs with h
    · refine length_writeAt_of_le ?_
      simp only [List.length_append, List.length_drop, List.length_cons, List.length_nil]
      omega
    · rfl
  fits tail room dict n h := by
    dsimp only [matchLz4] at h
    split_ifs at h with hfit
    cases h
    exact hfit.2.2
  back tail room dict n h := by
    dsimp only [matchLz4] at h ⊢
    have hfit : tail = dict ∧ tail.length = 20 ∧ 9 ≤ room.length := by
      by_contra hno
      rw [if_neg hno] at h
      cases h
    rw [if_pos hfit] at h ⊢
    cases h
    obtain ⟨rfl, hlen, hroom⟩ := hfit
    have hblock : ([0x0b, 20, 0, 0x50] ++ tail.drop 15 : Bytes).length = 9 := by
      simp only [List.length_append, List.length_drop, List.length_cons, List.length_nil]
      omega
    have htake : (writeAt room 0 ([0x0b, 20, 0, 0x50] ++ tail.drop 15)).take 9
        = [0x0b, 20, 0, 0x50] ++ tail.drop 15 := by
      rw [writeAt_of_le (by rw [hblock]; omega), List.take_zero, List.nil_append, List.take_left' hblock]
    rw [htake, if_pos ⟨rfl, hlen, hlen.ge⟩]
    exact congrArg some (List.take_append_drop 15 tail)

/-- The record of a key of one byte and a value of sixteen. -/
def longImage (b : UInt8) : Bytes := recordOf true ([b], List.replicate 16 7)

/-- Two records of one value, the second's tail a block over the first's, and back. -/
theorem coding_exact_run : matchLz4.compressIntoWithDict (tailOf (longImage 2) 5)
      (List.replicate 9 0)
      (tailOf (longImage 1) 5) = ([0x0b, 20, 0, 0x50, 7, 7, 7, 7, 7], some 9) ∧ ∃ out' n,
    encodeRecordGroup matchLz4 [longImage 1, longImage 2].flatten
        (endsFrom 0 [longImage 1, longImage 2]) (List.replicate 100 0) false = some (out', n)
      ∧ decodeRecordGroup matchLz4 (out'.take n) 2 56 = .ok [longImage 1, longImage 2].flatten := by
  have himage : ∀ b : UInt8, RecordImage (longImage b) := by
    intro b
    rw [longImage, recordOf]
    exact recordImage_recordBytes (recordOk_of_pairFits (r := ([b], List.replicate 16 7))
      ⟨by simp, by show (runOf [List.replicate 16 7]).length < 2 ^ 32; decide⟩)
  have hlen1 : (longImage 1).length = 28 := by decide
  have hlen2 : (longImage 2).length = 28 := by decide
  have hhead1 : imageHeadLen (longImage 1) = some 5 := by decide
  have hhead2 : imageHeadLen (longImage 2) = some 5 := by decide
  have hg : RecordGroup [longImage 1, longImage 2] := by
    refine ⟨by simp, by decide, by simpa using ⟨himage 1, himage 2⟩, by decide, ?_⟩
    simpa using ⟨(himage 1).dvd, (himage 2).dvd⟩
  obtain ⟨o1, p1, h1, hl1, hge1, hle1⟩ := encodeRec_of_room matchLz4_lossless (longImage 1)
    (List.replicate 100 0) 5 0 4 false hhead1 (himage 1).dvd (by rw [hlen1]; norm_num) (by norm_num)
    (by norm_num) (by rw [hlen1, List.length_replicate]; norm_num)
  rw [List.length_replicate] at hl1
  obtain ⟨o2, p2, h2, _, _, _⟩ :=
    encodeRec_of_room matchLz4_lossless (longImage 1) o1 5 1 p1 false hhead2
    (himage 2).dvd (by rw [hlen2]; norm_num) (by omega) (by omega) (by omega)
  have hget1 : getRange [longImage 1, longImage 2].flatten 0 28 = some (longImage 1) := by decide
  have hget2 : getRange [longImage 1, longImage 2].flatten 28 56 = some (longImage 2) := by decide
  have htail : getRange (longImage 1) (alignUp 5 4) (longImage 1).length
    = some (tailOf (longImage 1) 5) := by
    decide
  have henc : encodeRecordGroup matchLz4 [longImage 1, longImage 2].flatten
      (endsFrom 0 [longImage 1, longImage 2]) (List.replicate 100 0) false = some (o2, p2) := by
    rw [encodeRecordGroup, endsFrom, endsFrom, endsFrom, hlen1, hlen2, if_neg (by decide)]
    simp only [List.getElem?_cons_zero, Option.bind_eq_bind, Option.bind_some, Nat.zero_add,
      Nat.reduceAdd, hget1,
      hget2, hhead1, htail, encodeRecs, List.length_cons, List.length_nil, Nat.reduceMul, h1, h2]
  have hmost : ∀ img ∈ [longImage 1, longImage 2], img.length ≤ ZMAX_ULEN := by decide
  exact ⟨by decide, o2, p2, henc, (coding_exact matchLz4 matchLz4_lossless _ hg hmost _ _ _
    _ henc).1⟩

/-- One image of the longest key is written, and is not decoded. -/
lemma not_decoded_of_long {key : Bytes} (hk : key.length = 65535) :
    RecordGroup [byteImage key] ∧ ∃ out' n,
      encodeRecordGroup noLz4 [byteImage key].flatten (endsFrom 0 [byteImage key])
          (List.replicate 70000 0) false = some (out', n)
        ∧ decodeRecordGroup noLz4 (out'.take n)
          [byteImage key].length [byteImage key].flatten.length ≠ .ok [byteImage key].flatten := by
  have hok : RecordOk key [inlineExt [[7]] false] (runOf [[7]]) :=
    recordOk_of_pairFits (r := (key, [7])) ⟨hk.le, by show (runOf [[7]]).length < 2 ^ 32; decide⟩
  have himage : RecordImage (byteImage key) := by
    rw [byteImage, recordOf]
    exact recordImage_recordBytes hok
  have hhead : imageHeadLen (byteImage key) = some (4 + 65535) := by
    rw [byteImage, recordOf, imageHeadLen_recordBytes hok.klen, hk]
  have hlen : (byteImage key).length = 65548 := by
    rw [byteImage, recordOf, length_recordBytes, recordTailAt, hk]
    show alignUp (4 + 65535) REC_ALIGN + (if true = true ∧ compacts [inlineExt [[7]] false]
      = true then 4
      else 1 * EXT_BYTES) + alignUp (runOf [[7]]).length REC_ALIGN = 65548
    decide
  refine ⟨⟨by simp, by simp [ZMAX_COUNT], by simpa using himage, by simp, by simpa using himage.dvd⟩, ?_⟩
  generalize byteImage key = img at *
  obtain ⟨out', n, henc, _, _, _⟩ := encodeRec_of_room noLz4_lossless img (List.replicate 70000 0)
    (4 + 65535) 0 2 false
    hhead himage.dvd (by rw [hlen]; norm_num) (by norm_num) (by norm_num)
    (by rw [hlen, List.length_replicate]; norm_num)
  refine ⟨out', n, ?_, ?_⟩
  · have hget : getRange img 0 img.length = some img :=
      getRange_eq_some.mpr ⟨Nat.zero_le _, le_refl _, by rw [slice, List.take_length, List.drop_zero]⟩
    have htail : getRange img (alignUp (4 + 65535) 4) img.length = some (tailOf img (4 + 65535)) :=
      getRange_eq_some.mpr ⟨by rw [hlen, alignUp]; norm_num, le_refl _, by rw [slice, List.take_length, tailOf]⟩
    rw [encodeRecordGroup, List.flatten_cons, List.flatten_nil, List.append_nil, endsFrom, endsFrom,
      Nat.zero_add,
      if_neg (by rw [List.length_singleton, List.length_replicate]; simp [ZMAX_COUNT])]
    simp only [List.getElem?_cons_zero, Option.bind_eq_bind, Option.bind_some, hget, hhead, htail,
      encodeRecs, List.length_singleton, Nat.mul_one]
    rw [henc]
    rfl
  · intro hdec
    have hle := length_decode_one hdec
    rw [List.flatten_cons, List.flatten_nil, List.append_nil, hlen, ZMAX_ULEN] at hle
    omega

/-- **A group of one image longer than a group may be** is written, and is not decoded: nothing in
the coding bounds an image, the readers do. -/
theorem coding_not_long : noLz4.Lossless ∧ RecordGroup [byteImage (List.replicate 65535 0x61)] ∧
    ∃ out' n, encodeRecordGroup noLz4 [byteImage (List.replicate 65535 0x61)].flatten
        (endsFrom 0 [byteImage (List.replicate 65535 0x61)]) (List.replicate 70000 0) false = some (out', n)
      ∧ decodeRecordGroup noLz4 (out'.take n) [byteImage (List.replicate 65535 0x61)].length
          [byteImage (List.replicate 65535 0x61)].flatten.length
        ≠ .ok [byteImage (List.replicate 65535 0x61)].flatten :=
  ⟨noLz4_lossless, not_decoded_of_long List.length_replicate⟩

end Supdb

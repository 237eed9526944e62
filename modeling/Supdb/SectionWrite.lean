import Supdb.Section
import Supdb.BlockTable

/-!
# The section a finish writes

Whichever way a segment's writer lays its key section out, what is in it is the records of some
entries, and a checksum row behind them.

* `length_pieces`, `mem_piecesFrom` – a row has a word for each piece, and every piece ends at a
  boundary of the file or with the section.
* `verifyPieces_ok` – **a section with its row verifies.**
* `inlineTrailer`, `encodeInline_eq` – what the section built at the end is made of.
* `encodeInline_view` – **it holds its entries**, whatever row stands behind it, as long as every
  key is put into the table once.
-/

namespace Supdb

open StorageLib Flatindex

/-! ## The row -/

/-- Pieces from a boundary on. -/
lemma length_piecesFrom {len shift base p : ℕ} (hp : 0 < p) :
    (piecesFrom len shift base p).length = divCeil (len - p) (2 ^ shift) := by
  have hpos : 0 < 2 ^ shift := Nat.two_pow_pos shift
  induction hd : len - p using Nat.strong_induction_on generalizing p with
  | _ d ih =>
      rw [piecesFrom]
      by_cases h : p < len
      · rw [dif_pos h, List.length_cons, pieceStop, if_neg (by omega)]
        rcases le_or_gt len (p + 2 ^ shift) with hend | hmore
        · rw [min_eq_right hend, piecesFrom, dif_neg (by omega), List.length_nil, divCeil]
          refine (Nat.div_eq_of_lt_le ?_ ?_).symm <;> omega
        · rw [min_eq_left hmore.le, ih (len - (p + 2 ^ shift)) (by omega) (by omega) rfl, divCeil,
            divCeil]
          have hsum : d + 2 ^ shift - 1 = len - (p + 2 ^ shift) + 2 ^ shift - 1 + 2 ^ shift := by
            omega
          rw [hsum, Nat.add_div_right _ hpos]
      · rw [dif_neg h, List.length_nil, divCeil]
        exact (Nat.div_eq_of_lt (by omega)).symm

/-- A row has a word for each piece. -/
lemma length_pieces {len shift base : ℕ} (h : 0 < len) :
    (pieces len shift base).length = pieceCount len shift base := by
  have hpos : 0 < 2 ^ shift := Nat.two_pow_pos shift
  have hmod : base % 2 ^ shift < 2 ^ shift := Nat.mod_lt _ hpos
  rw [pieces, piecesFrom, dif_pos h, List.length_cons, pieceStop, if_pos rfl, pieceCount, divCeil]
  rcases le_or_gt len (2 ^ shift - base % 2 ^ shift) with hend | hmore
  · rw [min_eq_right hend, length_piecesFrom (by omega), divCeil, Nat.div_eq_of_lt (by omega)]
    refine (Nat.div_eq_of_lt_le ?_ ?_).symm <;> omega
  · rw [min_eq_left hmore.le, length_piecesFrom (by omega), divCeil]
    have hsum : base % 2 ^ shift + len + 2 ^ shift - 1 =
        len - (2 ^ shift - base % 2 ^ shift) + 2 ^ shift - 1 + 2 ^ shift := by omega
    rw [hsum, Nat.add_div_right _ hpos]

/-- A piece of a section ends where the next boundary of the file is, or with the section. -/
lemma mem_piecesFrom {len shift base : ℕ} {r : ℕ × ℕ} (n : ℕ) {p : ℕ} (hn : len - p = n)
    (hr : r ∈ piecesFrom len shift base p) : r.1 < len ∧ r.2 = pieceStop len shift base r.1 := by
  induction n using Nat.strong_induction_on generalizing p with
  | _ n ih =>
      rw [piecesFrom] at hr
      by_cases hp : p < len
      · rw [dif_pos hp, List.mem_cons] at hr
        rcases hr with rfl | hr
        · exact ⟨hp, rfl⟩
        · have hlt := @lt_pieceStop _ shift base _ hp
          exact ih _ (by omega) rfl hr
      · rw [dif_neg hp] at hr
        exact absurd hr List.not_mem_nil

/-- No piece ends behind the section. -/
lemma stop_le_of_mem_pieces {len shift base : ℕ} {r : ℕ × ℕ} (hr : r ∈ pieces len shift base) :
    r.2 ≤ len := by
  obtain ⟨-, hstop⟩ := mem_piecesFrom _ rfl hr
  rw [hstop, pieceStop]
  split_ifs <;> exact min_le_right _ _

lemma length_checksumRow {sec : Bytes} {shift base : ℕ} (h : 0 < sec.length) :
    (checksumRow sec shift base).length = checksumRowLen sec.length shift base := by
  rw [checksumRow, length_flatMap_of _ 4 _ (fun _ _ => length_leBytes 4 _), length_pieces h,
    checksumRowLen]

/-- The pieces left, against the row of all of them. -/
lemma verifyFrom_ok (sec : Bytes) (done rest : List (ℕ × ℕ)) :
    verifyFrom sec ((done ++ rest).flatMap (fun r => leBytes 4 (crc32 (slice sec r.1 r.2)).toNat))
      done.length rest = .ok () := by
  induction rest generalizing done with
  | nil => rfl
  | cons r rest ih =>
      have hrow : (done ++ r :: rest).flatMap (fun r => leBytes 4 (crc32 (slice sec r.1 r.2)).toNat)
          = ((done ++ r :: rest).map (fun r => (crc32 (slice sec r.1 r.2)).toNat)).flatMap
              (leBytes 4) := by
        rw [List.flatMap_map]
      have hword : pieceCrc ((done ++ r :: rest).flatMap
          (fun r => leBytes 4 (crc32 (slice sec r.1 r.2)).toNat)) done.length
            = some (crc32 (slice sec r.1 r.2)).toNat := by
        rw [pieceCrc, hrow, readWord_flatMap (by norm_num) _ (fun x hx => ?_)]
        · simp
        · obtain ⟨y, -, rfl⟩ := List.mem_map.mp hx
          exact lt_of_lt_of_le (BitVec.isLt _) (by norm_num)
      have hnext := ih (done ++ [r])
      rw [List.append_assoc, List.singleton_append, List.length_append, List.length_singleton]
        at hnext
      rw [verifyFrom, hword]
      dsimp only
      rw [if_neg (by simp), hnext]

/-- **A section with its row verifies.** -/
lemma verifyPieces_ok {sec : Bytes} (shift base : ℕ) (h : 0 < sec.length) :
    verifyPieces (sec ++ checksumRow sec shift base) sec.length shift base = .ok () := by
  have hrow : checksumRow sec shift base = (pieces sec.length shift base).flatMap
      (fun r => leBytes 4
        (crc32 (slice (sec ++ checksumRow sec shift base) r.1 r.2)).toNat) := by
    conv_lhs => rw [checksumRow]
    refine List.flatMap_congr (fun r hr => ?_)
    rw [slice_append_left (stop_le_of_mem_pieces hr)]
  have hget : getRange (sec ++ checksumRow sec shift base) sec.length
      (sec.length + checksumRowLen sec.length shift base) = some (checksumRow sec shift base) := by
    have hmid : getRange (sec ++ (checksumRow sec shift base ++ [])) sec.length
        (sec.length + checksumRowLen sec.length shift base) = some (checksumRow sec shift base) :=
      getRange_append_mid rfl (by rw [length_checksumRow h])
    rwa [List.append_nil] at hmid
  have hall := verifyFrom_ok (sec ++ checksumRow sec shift base) [] (pieces sec.length shift base)
  rw [List.nil_append, ← hrow] at hall
  rw [verifyPieces, hget]
  exact hall

/-! ## The section built at the end -/

/-- The offsets a plan gives the records are theirs. -/
lemma planRecs_eq (es : List FlatEntry) {at0 : ℕ}
    (hok : ∀ e ∈ es, e.key.length ≤ 65535 ∧ e.exts.length < COMPACT)
    (hfit : at0 + (recordsOf true es).length ≤ MAX_RECS) :
    planRecs es at0
    = some ((recOffsOf true es).map (at0 + ·), at0 + (recordsOf true es).length) := by
  induction es generalizing at0 with
  | nil => rfl
  | cons e es ih =>
      rw [recordsOf_cons, List.length_append, length_recordBytes] at hfit ⊢
      obtain ⟨hkey, hexts⟩ := hok e (List.mem_cons_self ..)
      simp only [MAX_RECS] at hfit ih
      have hrest := ih (fun x hx => hok x (List.mem_cons_of_mem _ hx))
        (by omega : at0 + (recordTailAt e.key.length e.exts true + alignUp e.tail.length
          REC_ALIGN) + (recordsOf true es).length ≤ _)
      rw [planRecs, if_neg (by omega), if_neg (by omega), if_neg (by simp only [MAX_RECS]; omega),
        checked, if_pos (by omega)]
      simp only [Option.bind_eq_bind, Option.bind_some, hrest, Option.some.injEq, Prod.mk.injEq]
      refine ⟨?_, by omega⟩
      rw [recOffsOf, recOffsOf, List.length_cons, List.range_succ_eq_map, List.map_cons,
        List.map_cons, List.map_map, List.map_map, List.map_map]
      congr 1
      · simp only [List.take_zero, recordsOf, List.flatMap_nil, List.length_nil, Nat.add_zero]
        exact Nat.mod_eq_of_lt (by omega)
      · refine List.map_congr_left (fun i _ => ?_)
        simp only [Function.comp, List.take_succ_cons, recordsOf_cons, List.length_append,
          length_recordBytes]
        omega

/-- Where the regions of a section built at the end lie, its table of `2 ^ bits` slots, and where
its records begin. -/
def inlineTrailer (target : ℕ+) (bits : ℕ) (es : List FlatEntry) : Trailer × ℕ :=
  let n := es.length
  let stride := fenceStride target n
  let fenceN := divCeil n stride
  let fenceOffsOff := HEADER + 2 ^ bits * SLOT + n * 4
  let recsOff := alignUp (fenceOffsOff + (fenceRegion (keyOf es) stride fenceN).length) REC_ALIGN
  (⟨fenceOffsOff, stride, fenceN, HEADER + 2 ^ bits * SLOT, HEADER, 2 ^ bits,
    recsOff + (recordsOf true es).length⟩, recsOff)

/-- What stands behind its header. -/
def inlineBody (target : ℕ+) (bits : ℕ) (es : List FlatEntry) (slots : List ℕ) : Bytes :=
  let t := (inlineTrailer target bits es).1
  let fence := fenceRegion (keyOf es) t.stride t.fenceN
  slots.flatMap (leBytes SLOT) ++ ((recOffsOf true es).flatMap (leBytes 4) ++ (fence ++
    (padding (t.fenceOffsOff + fence.length) REC_ALIGN ++ recordsOf true es)))

section Inline

variable {es : List FlatEntry} {target : ℕ+} {hashOf : Bytes → ℕ} {generation : ℕ}

/-- **The section built at the end**, and its filled table. -/
lemma encodeInline_eq (target : ℕ+) (order : ℕ → ℕ) (generation : ℕ) (hashOf : Bytes → ℕ)
    (hok : ∀ e ∈ es, e.key.length ≤ 65535 ∧ e.exts.length < COMPACT)
    (hfit : (recordsOf true es).length ≤ MAX_RECS) :
    ∃ bits slots, bits ≤ 33 ∧ hashCapFor es.length = some (2 ^ bits) ∧ es.length < 2 ^ bits ∧
      slots.length = 2 ^ bits ∧
      (∀ x ∈ slots, x = 0 ∨ ∃ i < es.length, x = slotWord (eachOf true hashOf es (order i)).2
        (eachOf true hashOf es (order i)).1) ∧
      (∀ i < es.length, Reaches 0 slots ((eachOf true hashOf es (order i)).2 % 2 ^ bits)
        (slotWord (eachOf true hashOf es (order i)).2 (eachOf true hashOf es (order i)).1)) ∧
      encodeInline target order es generation hashOf =
        some (headerBytes (headerWords generation es.length (inlineTrailer target bits es).2
          (recordsOf true es).length (inlineTrailer target bits es).1) ++
            inlineBody target bits es slots, (inlineTrailer target bits es).1.total) := by
  have hn : es.length < 2 ^ 32 := by
    have := length_le_recordsOf true es
    simp only [MAX_RECS] at hfit
    omega
  obtain ⟨bits, hcap, hbits, hroom⟩ := hashCapFor_spec hn
  have hoffs : (recOffsOf true es).map (0 + ·) = recOffsOf true es := by simp
  have hplan := planRecs_eq es hok (by rw [Nat.zero_add]; exact hfit)
  rw [hoffs, Nat.zero_add] at hplan
  have hsmall : ∀ i < es.length, ((eachOf true hashOf es (order i)).2,
      (eachOf true hashOf es (order i)).1).2 < 2 ^ 56 := by
    intro i _
    dsimp only [eachOf]
    rw [List.getD_eq_getElem?_getD]
    cases hi : (recOffsOf true es)[order i]? with
    | none => simp
    | some x => exact lt_trans (recOffsOf_lt hfit x (List.mem_of_getElem? hi)) (by norm_num)
  obtain ⟨slots, hfill, hslots, hof, hreach⟩ := fillHash_spec hroom hsmall false
  refine ⟨bits, slots, hbits, hcap, hroom, hslots, hof, hreach, ?_⟩
  set stride := fenceStride target es.length with hstride
  set fenceN := divCeil es.length stride with hfenceN
  have hlen := length_fenceRegion (keyOf es) stride fenceN
  have hblob : (if fenceN = 0 then 0 else (fenceN + 1) * 4) +
      ((fenceRegion (keyOf es) stride fenceN).length - if fenceN = 0 then 0 else (fenceN + 1) * 4) =
        (fenceRegion (keyOf es) stride fenceN).length := by
    refine Nat.add_sub_cancel' ?_
    rw [hlen]
    split_ifs <;> omega
  have hlayout : sectionLayout es.length (recordsOf true es).length stride fenceN
      ((fenceRegion (keyOf es) stride fenceN).length - if fenceN = 0 then 0 else (fenceN + 1) * 4) =
        some (inlineTrailer target bits es) := by
    rw [sectionLayout, if_neg (not_lt.mpr hfit), hcap]
    simp only [Option.bind_eq_bind, Option.bind_some, Nat.add_assoc, hblob]
    simp only [inlineTrailer, ← hstride, ← hfenceN, Nat.add_assoc]
  rw [encodeInline, hplan]
  simp only [Option.bind_eq_bind, Option.bind_some]
  rw [← hstride, ← hfenceN, hlayout]
  simp only [Option.bind_some]
  have hfill' :
      fillHash (inlineTrailer target bits es).1.cap ((inlineTrailer target bits es).1.cap - 1)
      es.length (fun i => (hashOf (keyOf es (order i)), (recOffsOf true es).getD (order i) 0)) false
        = some slots := hfill
  rw [hfill']
  rfl

/-- Where the regions of such a section are, whatever stands behind it. -/
lemma inlineBody_spec {bits : ℕ} {slots : List ℕ} {hdr row : Bytes} (hhdr : hdr.length = HEADER)
    (hslots : slots.length = 2 ^ bits) :
    let t := (inlineTrailer target bits es).1
    let recsOff := (inlineTrailer target bits es).2
    let sec := hdr ++ (inlineBody target bits es slots ++ row)
    HEADER + (inlineBody target bits es slots).length = t.total ∧
      t.fenceOffsOff + (fenceRegion (keyOf es) t.stride t.fenceN).length ≤ recsOff ∧
      recsOff ≤ t.fenceOffsOff + (fenceRegion (keyOf es) t.stride t.fenceN).length + 3 ∧
      4 ∣ recsOff ∧
      getRange sec t.hashOff (t.hashOff + t.cap * SLOT) = some (slots.flatMap (leBytes SLOT)) ∧
      getRange sec t.dirOff (t.dirOff + es.length * 4) =
        some ((recOffsOf true es).flatMap (leBytes 4)) ∧
      getRange sec t.fenceOffsOff
          (t.fenceOffsOff + (fenceRegion (keyOf es) t.stride t.fenceN).length) =
        some (fenceRegion (keyOf es) t.stride t.fenceN) ∧
      getRange sec recsOff (recsOff + (recordsOf true es).length) = some (recordsOf true es) := by
  intro t recsOff sec
  set table := slots.flatMap (leBytes SLOT) with htable
  set dir := (recOffsOf true es).flatMap (leBytes 4) with hdir
  set fence := fenceRegion (keyOf es) t.stride t.fenceN with hfence
  set pad := padding (t.fenceOffsOff + fence.length) REC_ALIGN with hpad
  have htableLen : table.length = 2 ^ bits * SLOT := by rw [length_flatMap_leBytes, hslots]
  have hdirLen : dir.length = es.length * 4 := by rw [length_flatMap_leBytes, length_recOffsOf]
  have hpadLen : t.fenceOffsOff + fence.length + pad.length = recsOff :=
    length_padding _ (by decide)
  have hup : recsOff < t.fenceOffsOff + fence.length + 4 := alignUp_lt _ (by decide)
  have hdvd : 4 ∣ recsOff := dvd_alignUp _ _
  have hfo : t.fenceOffsOff = HEADER + 2 ^ bits * SLOT + es.length * 4 := rfl
  have hcap : t.cap = 2 ^ bits := rfl
  have hho : t.hashOff = HEADER := rfl
  have hdo : t.dirOff = HEADER + 2 ^ bits * SLOT := rfl
  have htotal : t.total = recsOff + (recordsOf true es).length := rfl
  have hbody : inlineBody target bits es slots =
      table ++ (dir ++ (fence ++ (pad ++ recordsOf true es))) := rfl
  have hsec : sec = hdr ++ (table ++ (dir ++ (fence ++ (pad ++ (recordsOf true es ++ row))))) := by
    simp only [sec, hbody, List.append_assoc]
  refine ⟨?_, by omega, by omega, hdvd, ?_, ?_, ?_, ?_⟩
  · rw [hbody]
    simp only [List.length_append]
    omega
  · rw [hsec, hho, hcap]
    exact getRange_append_mid hhdr.symm (by rw [hhdr, htableLen])
  · rw [hsec, hdo, ← List.append_assoc]
    exact getRange_append_mid (by rw [List.length_append]; omega)
      (by rw [List.length_append]; omega)
  · have hs : sec = (hdr ++ (table ++ dir)) ++ (fence ++ (pad ++ (recordsOf true es ++ row))) := by
      rw [hsec]
      simp only [List.append_assoc]
    rw [hs]
    exact getRange_append_mid (by simp only [List.length_append]; omega)
      (by simp only [List.length_append]; omega)
  · have hs : sec = (hdr ++ (table ++ (dir ++ (fence ++ pad)))) ++ (recordsOf true es ++ row) := by
      rw [hsec]
      simp only [List.append_assoc]
    rw [hs]
    exact getRange_append_mid (by simp only [List.length_append]; omega)
      (by simp only [List.length_append]; omega)

/-- **The section built at the end holds its entries**, whatever stands behind it, where every key
is put into the table once. -/
lemma encodeInline_view {order : ℕ → ℕ} (target : ℕ+) (hashOf : Bytes → ℕ)
    (hok : ∀ e ∈ es, RecordOk e.key e.exts e.tail)
    (hfit : (recordsOf true es).length ≤ MAX_RECS) (hgen : generation < 2 ^ 64)
    (horder : ((List.range es.length).map order).Perm (List.range es.length)) :
    ∃ t recsOff body blobLen,
      encodeInline target order es generation hashOf =
        some (headerBytes (headerWords generation es.length recsOff (recordsOf true es).length t) ++
          body, t.total) ∧
      HEADER + body.length = t.total ∧ t.total < 2 ^ 62 ∧
      ∀ {base crcOff shift : ℕ} {sec row : Bytes}, 4 ∣ base → row.length < 2 ^ 62 →
        sec = headerBytes (sectionWords generation es.length recsOff (recordsOf true es).length t
          crcOff shift) ++ (body ++ row) →
        CrcOk sec crcOff shift →
        SectionOk sec es.length recsOff (recordsOf true es).length t blobLen crcOff shift ∧
        FlatIndex.parse sec = some (indexOf generation es.length recsOff
          (recordsOf true es).length t blobLen crcOff shift) ∧
        Nonempty (FlatView base (indexOf generation es.length recsOff (recordsOf true es).length t
          blobLen crcOff shift) sec es hashOf) := by
  obtain ⟨bits, slots, hbits, -, hroom, hslots, hof, hreach, henc⟩ := encodeInline_eq target order
    generation hashOf (fun e he => ⟨(hok e he).klen, (hok e he).count⟩) hfit
  have hspec := @inlineBody_spec es target bits slots _ [] (List.length_replicate
    : (List.replicate HEADER (0 : UInt8)).length = HEADER) hslots
  have hn := length_le_recordsOf true es
  have hstride := fenceStride_pos target es.length
  have hblobLt :=
    length_fenceBlob_lt hfit hstride (divCeil es.length (fenceStride target es.length))
  have hfenceLe := divCeil_le es.length hstride
  have hregion := length_fenceRegion (keyOf es) (fenceStride target es.length)
    (divCeil es.length (fenceStride target es.length))
  have hcap33 : 2 ^ bits ≤ 2 ^ 33 := Nat.pow_le_pow_right (by norm_num) hbits
  have hfit' : (recordsOf true es).length < 2 ^ 32 := by
    simp only [MAX_RECS] at hfit
    omega
  have hfenceSmall : (fenceRegion (keyOf es) (fenceStride target es.length)
      (divCeil es.length (fenceStride target es.length))).length < 2 ^ 35 := by
    rw [hregion]
    split_ifs <;> omega
  have hH : HEADER = 192 := rfl
  have hSLOT : SLOT = 8 := rfl
  set t := (inlineTrailer target bits es).1 with ht
  set recsOff := (inlineTrailer target bits es).2 with hro
  have hts : t.stride = fenceStride target es.length := rfl
  have hfn : t.fenceN = divCeil es.length (fenceStride target es.length) := rfl
  have hcap : t.cap = 2 ^ bits := rfl
  have hho : t.hashOff = HEADER := rfl
  have hdo : t.dirOff = HEADER + 2 ^ bits * SLOT := rfl
  have hfo : t.fenceOffsOff = HEADER + 2 ^ bits * SLOT + es.length * 4 := rfl
  have htotal : t.total = recsOff + (recordsOf true es).length := rfl
  rw [hSLOT] at hdo hfo
  obtain ⟨hlen, hlo, hhi, h4, -⟩ := hspec
  rw [hfn, hts] at hlo hhi
  refine ⟨t, recsOff, inlineBody target bits es slots,
    (fenceBlob (keyOf es) t.stride t.fenceN).length, henc, hlen, by omega, ?_⟩
  intro base crcOff shift sec row hbase hrow hsec hcrc
  have hhdr : (headerBytes (sectionWords generation es.length recsOff (recordsOf true es).length t
      crcOff shift)).length = HEADER := length_headerBytes (by simp [sectionWords, headerWords])
  obtain ⟨-, -, -, -, ghash, gdir, gfence, grecs⟩ := @inlineBody_spec _ _ _ _ _ row hhdr hslots
  rw [← hsec] at ghash gdir gfence grecs
  have hsecLen : sec.length = t.total + row.length := by
    rw [hsec, List.length_append, List.length_append, hhdr]
    omega
  -- the keys in another order fill the table all the same
  have hback : ∀ i < es.length, ∃ j < es.length, order j = i := fun i hi => by
    obtain ⟨j, hj, rfl⟩ := List.mem_map.mp (horder.mem_iff.mpr (List.mem_range.mpr hi))
    exact ⟨j, List.mem_range.mp hj, rfl⟩
  have hforth : ∀ j < es.length, order j < es.length := fun j hj =>
    List.mem_range.mp (horder.mem_iff.mp (List.mem_map_of_mem (List.mem_range.mpr hj)))
  have htab : TableOk true hashOf bits es slots :=
    { bits33 := hbits, room := hroom, length := hslots
      slotsOf := fun x hx => by
        rcases hof x hx with h0 | ⟨j, hj, hxj⟩
        · exact Or.inl h0
        · exact Or.inr ⟨order j, hforth j hj, hxj⟩
      reaches := fun i hi => by
        obtain ⟨j, hj, rfl⟩ := hback i hi
        exact hreach j hj }
  have hblob : 0 < es.length → (fenceRegion (keyOf es) (fenceStride target es.length)
      (divCeil es.length (fenceStride target es.length))).length =
        (divCeil es.length (fenceStride target es.length) + 1) * 4 +
          (fenceBlob (keyOf es) (fenceStride target es.length)
            (divCeil es.length (fenceStride target es.length))).length := fun h0 => by
    rw [hregion, if_pos (divCeil_pos h0 hstride)]
  refine regions_view hok hfit hgen htab hcap rfl (dvd_add hbase h4) hsec
    { small := by omega
      cap := ⟨bits, hcap⟩, keys := by rw [hcap]; exact hroom.le, stride := hstride
      strideFits := fenceStride_lt target (by omega), fenceN := rfl, fenceOff := by omega
      hash := ⟨hho.ge, by rw [hho, hcap, hSLOT]; omega⟩, dir := by omega, recs := by omega
      hashDir := Or.inl (by rw [hho, hcap, hSLOT]; dsimp only; omega)
      hashRecs := Or.inl (by rw [hho, hcap, hSLOT]; dsimp only; omega)
      dirRecs := Or.inl (by dsimp only; omega)
      fence := fun h0 => by
        have hb := hblob h0
        rw [hts, hfn]
        refine ⟨by omega, by omega, fun r hr => ?_⟩
        simp only [List.mem_cons, List.not_mem_nil, or_false] at hr
        rcases hr with rfl | rfl | rfl
        · exact Or.inr (by rw [hho, hcap, hSLOT]; dsimp only; omega)
        · exact Or.inr (by dsimp only; omega)
        · exact Or.inl (by dsimp only; omega)
      blob := fun h0 => by
        obtain ⟨-, hoffs, -, hread⟩ := fence_read (t := t)
          (by rw [hfn]; exact divCeil_pos h0 hstride) (length_fenceBlob_lt hfit hstride) gfence
        rw [(getRange_eq_some.mp hoffs).2.2]
        exact hread t.fenceN (le_refl _)
      crc := hcrc } grecs gfence gdir ghash

end Inline

end Supdb

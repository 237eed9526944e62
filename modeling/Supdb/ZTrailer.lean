import Supdb.PageFormat
import Supdb.Lib.Layout

/-!
# The form file's trailer

A form file ends with a page that says what the file holds, which segment it derives from and how
its filter was made.  Every field has an offset of its own; behind the fields are zeros, and last a
checksum.

* **`Trailer.encode`**, **`Trailer.decode`** – the trailer's bytes, and the trailer out of a page
  after every check that needs nothing of the file.
* `Trailer.Nests` – the fields do not contradict each other.
* **`Trailer.decode_encode`** – a trailer is read back where, and only where, its fields nest.
-/

namespace Supdb

open StorageLib

/-- A fence entry that no page holds. -/
def ZNOPAGE : UInt32 := 0xFFFFFFFF
/-- The file's mark, `"SUPDZPG2"`. -/
def ZMAGIC : Bytes := [0x53, 0x55, 0x50, 0x44, 0x5a, 0x50, 0x47, 0x32]
def ZVERSION : BitVec 32 := 2
/-- The trailer's length: a page. -/
def ZTRAILER : ℕ := ZPAGE
/-- The flag of a stored filter. -/
def ZT_FILTER : BitVec 32 := 1

def T_MAGIC : ℕ := 0
def T_VERSION : ℕ := 8
def T_PAGE_SIZE : ℕ := 12
def T_N_PAGES : ℕ := 16
def T_N_ENTRIES : ℕ := 24
def T_NKEYS : ℕ := 32
def T_RES_OFF : ℕ := 40
def T_RES_LEN : ℕ := 48
def T_KEYS_LEN : ℕ := 56
def T_FILTER_OFF : ℕ := 64
def T_FILTER_BLOCKS : ℕ := 72
def T_RES_CRC : ℕ := 80
def T_FLAGS : ℕ := 84
def T_TOTAL_ULEN : ℕ := 88
def T_SEG_RECS_LEN : ℕ := 96
def T_SEG_CRC_OFF : ℕ := 104
def T_SEG_KEY_OFF : ℕ := 112
def T_SEG_HASH_CAP : ℕ := 120
def T_SEG_FILE_LEN : ℕ := 128
def T_SEG_TIMESTAMP : ℕ := 136
def T_SEG_GENERATION : ℕ := 144
def T_SEG_ROW_CRC : ℕ := 152
def T_REC_VERSION : ℕ := 156
def T_REC_MAGIC : ℕ := 160
def T_PAGE_CAP : ℕ := 168
def T_MAX_COUNT : ℕ := 172
def T_SEG_ID : ℕ := 176
def T_SEG_END_SEQ : ℕ := 184
def T_BIND32 : ℕ := 192
def T_BLOOM_PROBES : ℕ := 196
def T_BLOOM_SIG : ℕ := 200
def T_BLOOM_BITS : ℕ := 208
def T_ZERO : ℕ := 212
def T_CRC : ℕ := ZTRAILER - 4

/-- `get32`. -/
def get32 (b : Bytes) (p : ℕ) : BitVec 32 := BitVec.ofNat 32 (u32At b p)

/-- `get64`. -/
def get64 (b : Bytes) (p : ℕ) : BitVec 64 := BitVec.ofNat 64 (u64At b p)

/-- A field of 32 bits, as `put32` writes it. -/
def put32 (p : ℕ) (v : BitVec 32) : ℕ × Bytes := (p, leBytes 4 v.toNat)

/-- A field of 64 bits, as `put64` writes it. -/
def put64 (p : ℕ) (v : BitVec 64) : ℕ × Bytes := (p, leBytes 8 v.toNat)

/-- `bind32`: what binds a form file's pages to its segment. -/
def bind32 (segId segEndSeq nkeys : BitVec 64) (segRowCrc : BitVec 32) : BitVec 32 :=
  crc32 (leBytes 8 segId.toNat ++ leBytes 8 segEndSeq.toNat ++ leBytes 8 nkeys.toNat ++
    leBytes 4 segRowCrc.toNat)

/-- The trailer's fields that are neither constants nor derived. -/
@[ext]
structure Trailer where
  nPages : BitVec 64
  nEntries : BitVec 64
  nkeys : BitVec 64
  resOff : BitVec 64
  resLen : BitVec 64
  keysLen : BitVec 64
  filterOff : BitVec 64
  filterBlocks : BitVec 64
  resCrc : BitVec 32
  filter : Bool
  totalUlen : BitVec 64
  segRecsLen : BitVec 64
  segCrcOff : BitVec 64
  segKeyOff : BitVec 64
  segHashCap : BitVec 64
  segFileLen : BitVec 64
  segTimestamp : BitVec 64
  segGeneration : BitVec 64
  segRowCrc : BitVec 32
  recVersion : BitVec 32
  recMagic : BitVec 64
  segId : BitVec 64
  segEndSeq : BitVec 64
  bloomProbes : BitVec 32
  bloomSig : BitVec 64
  bloomBitsPerKey : BitVec 32
  deriving DecidableEq, Repr

namespace Trailer

/-- `bind32`. -/
def bind32 (t : Trailer) : BitVec 32 := Supdb.bind32 t.segId t.segEndSeq t.nkeys t.segRowCrc

/-- The fields as `encode` writes them, the checksum apart. -/
def fields (t : Trailer) : List (ℕ × Bytes) :=
  [ (T_MAGIC, ZMAGIC), put32 T_VERSION ZVERSION, put32 T_PAGE_SIZE (BitVec.ofNat 32 ZPAGE),
    put64 T_N_PAGES t.nPages, put64 T_N_ENTRIES t.nEntries, put64 T_NKEYS t.nkeys,
    put64 T_RES_OFF t.resOff, put64 T_RES_LEN t.resLen, put64 T_KEYS_LEN t.keysLen,
    put64 T_FILTER_OFF t.filterOff, put64 T_FILTER_BLOCKS t.filterBlocks, put32 T_RES_CRC t.resCrc,
    put32 T_FLAGS (if t.filter then ZT_FILTER else 0), put64 T_TOTAL_ULEN t.totalUlen,
    put64 T_SEG_RECS_LEN t.segRecsLen, put64 T_SEG_CRC_OFF t.segCrcOff, put64 T_SEG_KEY_OFF t.segKeyOff,
    put64 T_SEG_HASH_CAP t.segHashCap, put64 T_SEG_FILE_LEN t.segFileLen, put64 T_SEG_TIMESTAMP t.segTimestamp,
    put64 T_SEG_GENERATION t.segGeneration, put32 T_SEG_ROW_CRC t.segRowCrc, put32 T_REC_VERSION t.recVersion,
    put64 T_REC_MAGIC t.recMagic, put32 T_PAGE_CAP (BitVec.ofNat 32 ZCAP),
    put32 T_MAX_COUNT (BitVec.ofNat 32 ZMAX_COUNT), put64 T_SEG_ID t.segId, put64 T_SEG_END_SEQ t.segEndSeq,
    put32 T_BIND32 t.bind32, put32 T_BLOOM_PROBES t.bloomProbes, put64 T_BLOOM_SIG t.bloomSig,
    put32 T_BLOOM_BITS t.bloomBitsPerKey ]

/-- The trailer's bytes before the checksum is written. -/
def body (t : Trailer) : Bytes := layOut t.fields (List.replicate ZTRAILER 0)

/-- `encode`. -/
def encode (t : Trailer) : Bytes :=
  writeAt t.body T_CRC (leBytes 4 (crc32 (t.body.take T_CRC)).toNat)

/-- The fields read at their offsets. -/
def read (bytes : Bytes) : Trailer where
  nPages := get64 bytes T_N_PAGES
  nEntries := get64 bytes T_N_ENTRIES
  nkeys := get64 bytes T_NKEYS
  resOff := get64 bytes T_RES_OFF
  resLen := get64 bytes T_RES_LEN
  keysLen := get64 bytes T_KEYS_LEN
  filterOff := get64 bytes T_FILTER_OFF
  filterBlocks := get64 bytes T_FILTER_BLOCKS
  resCrc := get32 bytes T_RES_CRC
  filter := get32 bytes T_FLAGS &&& ZT_FILTER ≠ 0
  totalUlen := get64 bytes T_TOTAL_ULEN
  segRecsLen := get64 bytes T_SEG_RECS_LEN
  segCrcOff := get64 bytes T_SEG_CRC_OFF
  segKeyOff := get64 bytes T_SEG_KEY_OFF
  segHashCap := get64 bytes T_SEG_HASH_CAP
  segFileLen := get64 bytes T_SEG_FILE_LEN
  segTimestamp := get64 bytes T_SEG_TIMESTAMP
  segGeneration := get64 bytes T_SEG_GENERATION
  segRowCrc := get32 bytes T_SEG_ROW_CRC
  recVersion := get32 bytes T_REC_VERSION
  recMagic := get64 bytes T_REC_MAGIC
  segId := get64 bytes T_SEG_ID
  segEndSeq := get64 bytes T_SEG_END_SEQ
  bloomProbes := get32 bytes T_BLOOM_PROBES
  bloomSig := get64 bytes T_BLOOM_SIG
  bloomBitsPerKey := get32 bytes T_BLOOM_BITS

/-- The last checks of `decode`: that the fields do not contradict each other. -/
def checkNests (t : Trailer) : Except ZError Trailer :=
  if ¬ (t.nPages.toNat * ZPAGE < 2 ^ 64 ∧ t.nPages.toNat * ZPAGE = t.resOff.toNat) then
    .error (.trailer "res_off is not the pages' length")
  else if t.nEntries < t.nPages ∨ t.nkeys < t.nEntries then
    .error (.trailer "entries and pages do not nest in the keys")
  else if 2 ^ 32 - 1 < t.nEntries.toNat ∨ 2 ^ 32 - 1 < t.keysLen.toNat then
    .error (.trailer "the fence passes what its u32 offsets count")
  else if t.filter ≠ decide (0 < t.filterBlocks.toNat) then
    .error (.trailer "the filter flag and the filter's blocks disagree")
  else if t.filter ∧ (t.bloomProbes = 0 ∨ t.bloomBitsPerKey = 0) then
    .error (.trailer "a filter with no probes or no bits")
  else .ok t

/-- `decode`. -/
def decode (bytes : Bytes) : Except ZError Trailer :=
  if bytes.length ≠ ZTRAILER then .error .length
  else if slice bytes T_MAGIC (T_MAGIC + 8) ≠ ZMAGIC then .error .magic
  else if get32 bytes T_VERSION ≠ ZVERSION then .error .version
  else if get32 bytes T_PAGE_SIZE ≠ BitVec.ofNat 32 ZPAGE then .error .pageSize
  else if get32 bytes T_CRC ≠ crc32 (bytes.take T_CRC) then .error .trailerCrc
  else if get32 bytes T_PAGE_CAP ≠ BitVec.ofNat 32 ZCAP ∨
    get32 bytes T_MAX_COUNT ≠ BitVec.ofNat 32 ZMAX_COUNT then
    .error (.trailer "the page capacity or the group size is not this layout's")
  else if get32 bytes T_FLAGS &&& ~~~ZT_FILTER ≠ 0 then
    .error (.trailer "a flag bit this reader does not know is set")
  else if (slice bytes T_ZERO T_CRC).any (· ≠ 0) then .error (.trailer "a reserved byte is not zero")
  else if get32 bytes T_BIND32 ≠ (read bytes).bind32 then
    .error (.trailer "bind32 is not the hash of the segment's identity fields")
  else (read bytes).checkNests

/-- `expected_file_len`: region A, region B padded, the trailer; nothing where the fields overflow.
-/
def expectedFileLen (t : Trailer) : Option ℕ :=
  let padded := alignUp t.resLen.toNat ZPAGE
  if 2 ^ 64 ≤ padded ∨ 2 ^ 64 ≤ t.resOff.toNat + padded ∨
    2 ^ 64 ≤ t.resOff.toNat + padded + ZTRAILER then none
  else some (t.resOff.toNat + padded + ZTRAILER)

/-! ## What is written is read -/

/-- The fields do not contradict each other. -/
structure Nests (t : Trailer) : Prop where
  pages : t.resOff.toNat = ZPAGE * t.nPages.toNat
  entries : t.nPages ≤ t.nEntries ∧ t.nEntries ≤ t.nkeys
  counts : t.nEntries.toNat < 2 ^ 32 ∧ t.keysLen.toNat < 2 ^ 32
  filter : t.filter = true ↔ 0 < t.filterBlocks.toNat
  bloom : t.filter = true → t.bloomProbes ≠ 0 ∧ t.bloomBitsPerKey ≠ 0

lemma checkNests_iff (t u : Trailer) : t.checkNests = .ok u ↔ u = t ∧ t.Nests := by
  have hoff := t.resOff.isLt
  have hfilter : t.filter = decide (0 < t.filterBlocks.toNat) ↔
    (t.filter = true ↔ 0 < t.filterBlocks.toNat) := by
    cases t.filter with
    | true => simp
    | false => simp
  constructor
  · intro h
    rw [checkNests] at h
    split_ifs at h with h1 h2 h3 h4 h5
    rw [Except.ok.injEq, eq_comm] at h
    rw [not_or, BitVec.not_lt, BitVec.not_lt] at h2
    refine ⟨h, by rw [← h1.2, mul_comm], h2, by omega, hfilter.mp (not_not.mp h4), ?_⟩
    intro hf
    exact ⟨fun hp => h5 ⟨hf, Or.inl hp⟩, fun hb => h5 ⟨hf, Or.inr hb⟩⟩
  · rintro ⟨rfl, hn⟩
    have hpages : u.nPages.toNat * ZPAGE = u.resOff.toNat := by rw [hn.pages, mul_comm]
    obtain ⟨ha, hb⟩ := hn.entries
    have hcounts := hn.counts
    rw [checkNests, if_neg (not_not_intro ⟨by rw [hpages]; exact hoff, hpages⟩),
      if_neg (not_or.mpr ⟨BitVec.not_lt.mpr ha, BitVec.not_lt.mpr hb⟩), if_neg (by omega),
      if_neg (not_not_intro (hfilter.mpr hn.filter)), if_neg]
    rintro ⟨hf, hz⟩
    obtain ⟨hp, hb⟩ := hn.bloom hf
    exact hz.elim hp hb

lemma fst_put32 (p : ℕ) (v : BitVec 32) : (put32 p v).1 = p := rfl

lemma fst_put64 (p : ℕ) (v : BitVec 64) : (put64 p v).1 = p := rfl

lemma length_put32 (p : ℕ) (v : BitVec 32) : (put32 p v).2.length = 4 := length_leBytes _ _

lemma length_put64 (p : ℕ) (v : BitVec 64) : (put64 p v).2.length = 8 := length_leBytes _ _

/-- The fields come in the order of their offsets. -/
lemma ascends_fields (t : Trailer) : Ascends 0 T_ZERO t.fields := by
  simp only [fields, Ascends, fst_put32, fst_put64, length_put32, length_put64]
  decide

lemma length_zeros : (List.replicate ZTRAILER (0 : UInt8)).length = 4096 := List.length_replicate

lemma length_body (t : Trailer) : t.body.length = 4096 := by
  rw [body, length_layOut t.ascends_fields (by rw [length_zeros]; decide), length_zeros]

/-- What lies in the body before the checksum lies in the trailer. -/
lemma hasAt_encode {t : Trailer} {p : ℕ} {x : Bytes} (h : HasAt t.body p x)
    (hp : p + x.length ≤ T_CRC) : HasAt t.encode p x := by
  refine h.writeAt ?_ (Or.inl hp)
  rw [length_leBytes, length_body]
  decide

lemma length_encode (t : Trailer) : t.encode.length = ZTRAILER := by
  have hfits : T_CRC + (leBytes 4 (crc32 (t.body.take T_CRC)).toNat).length ≤ t.body.length := by
    rw [length_leBytes, length_body]
    decide
  rw [encode, length_writeAt_of_le hfits, length_body]
  rfl

/-- **A field is found at its offset.** -/
lemma hasAt_field {t : Trailer} {f : ℕ × Bytes} (hf : f ∈ t.fields) : HasAt t.encode f.1 f.2 := by
  have hzero : T_ZERO ≤ (List.replicate ZTRAILER (0 : UInt8)).length := by
    rw [length_zeros]
    decide
  refine hasAt_encode (hasAt_layOut t.ascends_fields hzero f hf) ?_
  have hend := (t.ascends_fields.within f hf).2
  have : T_ZERO ≤ T_CRC := by decide
  omega

lemma get64_of_hasAt {b : Bytes} {p : ℕ} {v : BitVec 64} (h : HasAt b p (leBytes 8 v.toNat)) :
    get64 b p = v := by
  rw [HasAt, length_leBytes] at h
  rw [get64, u64At, h, leNat_leBytes (by have := v.isLt; norm_num at this ⊢; omega)]
  exact BitVec.ofNat_toNat 64 v |>.trans (BitVec.setWidth_eq v)

lemma get32_of_hasAt {b : Bytes} {p : ℕ} {v : BitVec 32} (h : HasAt b p (leBytes 4 v.toNat)) :
    get32 b p = v := by
  rw [HasAt, length_leBytes] at h
  rw [get32, u32At, h, leNat_leBytes (by have := v.isLt; norm_num at this ⊢; omega)]
  exact BitVec.ofNat_toNat 32 v |>.trans (BitVec.setWidth_eq v)

lemma get64_encode {t : Trailer} {p : ℕ} {v : BitVec 64} (h : put64 p v ∈ t.fields) :
    get64 t.encode p = v :=
  get64_of_hasAt (hasAt_field h)

lemma get32_encode {t : Trailer} {p : ℕ} {v : BitVec 32} (h : put32 p v ∈ t.fields) :
    get32 t.encode p = v :=
  get32_of_hasAt (hasAt_field h)

/-- The fields read back. -/
lemma read_encode (t : Trailer) : read t.encode = t := by
  have hflag : decide ((if t.filter then ZT_FILTER else 0) &&& ZT_FILTER ≠ 0) = t.filter := by
    cases t.filter with
    | true => rfl
    | false => rfl
  apply Trailer.ext
  all_goals simp only [read]
  case filter =>
      have hread : get32 t.encode T_FLAGS = if t.filter then ZT_FILTER else 0 := get32_encode (by simp [fields])
      rw [hread, hflag]
  case resCrc | segRowCrc | recVersion | bloomProbes | bloomBitsPerKey =>
    exact get32_encode (by simp [fields])
  all_goals exact get64_encode (by simp [fields])

/-- Behind the fields are zeros. -/
lemma reserved_encode (t : Trailer) : (slice t.encode T_ZERO T_CRC).any (· ≠ 0) = false := by
  have hlen := t.length_encode
  have hzero : T_ZERO ≤ (List.replicate ZTRAILER (0 : UInt8)).length := by
    rw [length_zeros]
    decide
  have hstart : HasAt (List.replicate ZTRAILER (0 : UInt8)) T_ZERO
    (List.replicate (T_CRC - T_ZERO) 0) := by
    rw [HasAt, List.length_replicate, slice_replicate _ _ _ _ (by decide), Nat.add_sub_cancel_left]
  have hbody : HasAt t.body T_ZERO (List.replicate (T_CRC - T_ZERO) 0) :=
    hstart.layOut t.ascends_fields hzero (Or.inr le_rfl)
  rw [← hasAt_zeros (by decide) (by rw [hlen]; decide)]
  exact hasAt_encode hbody (by rw [List.length_replicate]; decide)

/-- The checksum is of what lies before it. -/
lemma crc_encode (t : Trailer) : get32 t.encode T_CRC = crc32 (t.encode.take T_CRC) := by
  have hfits : T_CRC + (leBytes 4 (crc32 (t.body.take T_CRC)).toNat).length ≤ t.body.length := by
    rw [length_leBytes, length_body]
    decide
  have hbefore := slice_writeAt_before (a := 0) (b := T_CRC) hfits le_rfl
  simp only [slice, List.drop_zero] at hbefore
  rw [encode, hbefore]
  exact get32_of_hasAt (hasAt_writeAt hfits)

/-- **A trailer is read back** where, and only where, its fields nest. -/
theorem decode_encode (t : Trailer) : decode t.encode = .ok t ↔ t.Nests := by
  have hmagic : slice t.encode T_MAGIC (T_MAGIC + 8) = ZMAGIC :=
    hasAt_field (f := (T_MAGIC, ZMAGIC)) (by simp [fields])
  have hversion : get32 t.encode T_VERSION = ZVERSION := get32_encode (by simp [fields])
  have hpage : get32 t.encode T_PAGE_SIZE = BitVec.ofNat 32 ZPAGE := get32_encode (by simp [fields])
  have hcap : get32 t.encode T_PAGE_CAP = BitVec.ofNat 32 ZCAP := get32_encode (by simp [fields])
  have hcount : get32 t.encode T_MAX_COUNT = BitVec.ofNat 32 ZMAX_COUNT :=
    get32_encode (by simp [fields])
  have hbind : get32 t.encode T_BIND32 = t.bind32 := get32_encode (by simp [fields])
  have hflags : get32 t.encode T_FLAGS &&& ~~~ZT_FILTER = 0 := by
    have hread : get32 t.encode T_FLAGS = if t.filter then ZT_FILTER else 0 :=
      get32_encode (by simp [fields])
    rw [hread]
    cases t.filter with
    | true => rfl
    | false => rfl
  rw [decode, if_neg (not_not_intro t.length_encode), if_neg (not_not_intro hmagic),
    if_neg (not_not_intro hversion), if_neg (not_not_intro hpage),
    if_neg (not_not_intro t.crc_encode),
    if_neg (not_or.mpr ⟨not_not_intro hcap, not_not_intro hcount⟩), if_neg (not_not_intro hflags),
    if_neg (by rw [reserved_encode]; exact Bool.false_ne_true), read_encode,
    if_neg (not_not_intro hbind), checkNests_iff]
  exact and_iff_right rfl

end Trailer

end Supdb

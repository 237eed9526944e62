import Supdb.Block
import Supdb.Lib.Trap

/-!
# Reading a range of a chunked block

A chunked block is read a range at a time: the directory says how long a chunk is, how many there
are, where each lies and what its checksum is, and only the chunks the range touches are verified
and decoded, each to its own place in the destination.  The directory is read from the block itself,
which may be damaged or may by now hold something else.

* **`readChunkedRange`** – the reader; an index outside its buffer is a trap.
* `FromChunk` – a byte of the destination is one of a chunk whose checksum matched.
* **`readChunkedRange_exact`** – exactly when a range read is a range written from such chunks, and
  when what was chunked reads back.

The reader takes a range it has not covered for one it has: the loop ends with the directory's last
chunk, wherever the range ends, and a chunk that decodes short is not measured.
-/

namespace Supdb

open StorageLib Run

/-! ## The reader -/

/-- The error of a range read. -/
inductive ChunkErr where
  | invalid (text : String)
  | lz4
  deriving DecidableEq, Repr

/-- `bad`. -/
def badChunk (what : String) : ChunkErr :=
  .invalid ("not a valid chunked block (" ++ what ++ "); its space may have been reused")

/-- The directory's first word: the bytes of a chunk. -/
def chunkSize (blk : Bytes) : ℕ := u32At blk 0

/-- Its second: how many chunks there are. -/
def chunkCount (blk : Bytes) : ℕ := u32At blk 4

/-- `start`: where a chunk begins, behind the directory. -/
def chunkStart (blk : Bytes) (i : ℕ) : ℕ := u32At blk (8 + 4 * i)

/-- `stored_crc`. -/
def storedCrc (blk : Bytes) (i : ℕ) : ℕ := u32At blk (8 + 4 * (chunkCount blk + 1) + 4 * i)

/-- A chunk as it is stored. -/
def chunkRaw (blk : Bytes) (i : ℕ) : Bytes :=
  slice blk (chunkHeaderLen (chunkCount blk) + chunkStart blk i)
    (chunkHeaderLen (chunkCount blk) + chunkStart blk (i + 1))

/-- A chunk decompressed to `lo..hi` of the destination. -/
def decodeChunk (lz : Lz4) (raw : Bytes) (lo hi : ℕ) (dst : Bytes) : Run ChunkErr Bytes :=
  if hi ≤ dst.length then
    match lz.decompressInto raw (hi - lo) with
    | some x => ok (writeAt dst lo (x.take (hi - lo)))
    | none => err .lz4
  else trap .bounds

/-- A stored chunk put at `lo..hi` of the destination: as it is where it is as long, else
decompressed. -/
def placeChunk (lz : Lz4) (raw : Bytes) (lo hi : ℕ) (dst : Bytes) : Run ChunkErr Bytes := do
  let width ← subU hi lo
  if raw.length = width then copyTo dst lo hi raw else decodeChunk lz raw lo hi dst

/-- One turn of the loop of `read_chunked_range`. -/
def readChunk (lz : Lz4) (blk : Bytes) (uncompressed : ℕ) (verify : Bool) (i : ℕ) (dst : Bytes) :
    Run ChunkErr Bytes :=
  if chunkStart blk (i + 1) < chunkStart blk i ∨
    blk.length < chunkHeaderLen (chunkCount blk) + chunkStart blk (i + 1) then
    err (badChunk "chunk offsets out of range")
  else if verify = true ∧ (crc32 (chunkRaw blk i)).toNat ≠ storedCrc blk i then err (badChunk "chunk checksum mismatch")
  else placeChunk lz (chunkRaw blk i) (i * chunkSize blk)
    (min ((i + 1) * chunkSize blk) uncompressed) dst

/-- The loop over `m` chunks from the `i`-th on. -/
def readChunks (lz : Lz4) (blk : Bytes) (uncompressed : ℕ) (verify : Bool) : ℕ → ℕ → Bytes →
    Run ChunkErr Bytes
  | 0, _, dst => ok dst
  | m + 1, i, dst =>
      readChunk lz blk uncompressed verify i dst >>= readChunks lz blk uncompressed verify m (i + 1)

/-- `read_chunked_range`. -/
def readChunkedRange (lz : Lz4) (blk : Bytes) (uncompressed a b : ℕ) (dst : Bytes) (verify : Bool) :
    Run ChunkErr Bytes :=
  if blk.length < 8 then err (badChunk "truncated header")
  else if chunkSize blk = 0 ∨ chunkCount blk = 0 ∨ 2 ^ 20 < chunkCount blk then err (badChunk "implausible chunk directory")
  else if blk.length < chunkHeaderLen (chunkCount blk) then err (badChunk "directory extends past the block")
  else
    let first := a / chunkSize blk
    let last := min ((b - 1) / chunkSize blk) (chunkCount blk - 1)
    readChunks lz blk uncompressed verify (last + 1 - first) first dst

/-! ## What a range read has written -/

section Read

variable {lz : Lz4} {blk dst out : Bytes} {un : ℕ}

/-- A chunk lies within the block, and its stored bytes have its checksum. -/
structure Checked (blk : Bytes) (i : ℕ) : Prop where
  start : chunkStart blk i ≤ chunkStart blk (i + 1)
  stop : chunkHeaderLen (chunkCount blk) + chunkStart blk (i + 1) ≤ blk.length
  crc : (crc32 (chunkRaw blk i)).toNat = storedCrc blk i

/-- The bytes a chunk puts in the destination. -/
def chunkBytes (lz : Lz4) (blk : Bytes) (un i : ℕ) : Option Bytes :=
  let width := min ((i + 1) * chunkSize blk) un - i * chunkSize blk
  if (chunkRaw blk i).length = width then some (chunkRaw blk i)
  else (lz.decompressInto (chunkRaw blk i) width).map (List.take width)

lemma length_chunkBytes {i : ℕ} {x : Bytes} (h : chunkBytes lz blk un i = some x) :
    x.length ≤ min ((i + 1) * chunkSize blk) un - i * chunkSize blk := by
  rw [chunkBytes] at h
  split_ifs at h with hlen
  · rw [Option.some.injEq] at h
    rw [← h, hlen]
  · obtain ⟨y, -, rfl⟩ := Option.map_eq_some_iff.mp h
    exact List.length_take_le _ _

/-- A chunk placed is its bytes written where they belong. -/
lemma placeChunk_ok {i : ℕ}
    (h : placeChunk lz (chunkRaw blk i) (i * chunkSize blk) (min ((i + 1) * chunkSize blk) un) dst
    = ok out) : ∃ x, chunkBytes lz blk un i = some x ∧ i * chunkSize blk + x.length ≤ dst.length ∧
      out = writeAt dst (i * chunkSize blk) x := by
  rw [placeChunk, subU] at h
  by_cases hle : i * chunkSize blk ≤ min ((i + 1) * chunkSize blk) un
  · rw [if_pos hle, ok_bind] at h
    rw [chunkBytes]
    by_cases hlen : (chunkRaw blk i).length = min ((i + 1) * chunkSize blk) un - i * chunkSize blk
    · rw [if_pos hlen, copyTo] at h
      split_ifs at h with hin
      rw [Run.ok.injEq] at h
      exact ⟨chunkRaw blk i, if_pos hlen, by omega, h.symm⟩
    · rw [if_neg hlen, decodeChunk] at h
      split_ifs at h with hin
      rw [if_neg hlen]
      cases hx : lz.decompressInto (chunkRaw blk i) (min ((i + 1) * chunkSize blk) un - i * chunkSize blk) with
      | none =>
          rw [hx] at h
          exact absurd h (by simp)
      | some x =>
          rw [hx] at h
          simp only [Run.ok.injEq] at h
          refine ⟨_, rfl, ?_, h.symm⟩
          have := List.length_take_le (min ((i + 1) * chunkSize blk) un - i * chunkSize blk) x
          omega
  · rw [if_neg hle, trap_bind] at h
    exact absurd h (by simp)

/-- A turn of the loop that succeeds has checked its chunk and written it. -/
lemma readChunk_ok {i : ℕ} (h : readChunk lz blk un true i dst = ok out) :
    Checked blk i ∧ ∃ x, chunkBytes lz blk un i = some x ∧
      i * chunkSize blk + x.length ≤ dst.length ∧ out = writeAt dst (i * chunkSize blk) x := by
  rw [readChunk] at h
  split_ifs at h with hin hcrc
  obtain ⟨h1, h2⟩ := not_or.mp hin
  refine ⟨⟨not_lt.mp h1, not_lt.mp h2, ?_⟩, placeChunk_ok h⟩
  by_contra hne
  exact hcrc ⟨rfl, hne⟩

/-- What lies before a write stays, and what was written is there. -/
lemma getElem?_writeAt {x : Bytes} {off : ℕ} (h : off + x.length ≤ dst.length) :
    (∀ p < off, (writeAt dst off x)[p]? = dst[p]?) ∧ ∀ q < x.length, (writeAt dst off x)[off + q]?
    = x[q]? := by
  have htake : (dst.take off).length = off := by
    rw [List.length_take]
    omega
  rw [writeAt_of_le h]
  constructor
  · intro p hp
    rw [List.getElem?_append_left (by omega), List.getElem?_take, if_pos hp]
  · intro q hq
    rw [List.getElem?_append_right (by omega), htake, Nat.add_sub_cancel_left,
      List.getElem?_append_left hq]

/-- **The loop**: every chunk it went over was checked, and its bytes are in the destination. -/
lemma readChunks_ok (m : ℕ) : ∀ {i : ℕ} {dst out : Bytes}, readChunks lz blk un true m i dst
    = ok out → out.length = dst.length ∧ (∀ p < i * chunkSize blk, out[p]? = dst[p]?) ∧
      ∀ j, i ≤ j → j < i + m → Checked blk j ∧ ∃ x, chunkBytes lz blk un j = some x ∧
        ∀ q < x.length, out[j * chunkSize blk + q]? = x[q]? := by
  induction m with
  | zero =>
      intro i dst out h
      rw [readChunks, Run.ok.injEq] at h
      subst h
      exact ⟨rfl, fun _ _ => rfl, fun j h1 h2 => absurd h2 (by omega)⟩
  | succ m ih =>
      intro i dst out h
      rw [readChunks] at h
      cases hone : readChunk lz blk un true i dst with
      | err e =>
          rw [hone, err_bind] at h
          exact absurd h (by simp)
      | trap t =>
          rw [hone, trap_bind] at h
          exact absurd h (by simp)
      | ok dst1 =>
          rw [hone, ok_bind] at h
          obtain ⟨hcheck, x, hx, hroom, rfl⟩ := readChunk_ok hone
          obtain ⟨hlen, hbefore, hrest⟩ := ih h
          obtain ⟨hkeep, hput⟩ := getElem?_writeAt hroom
          have hwidth := length_chunkBytes hx
          have hnext : (i + 1) * chunkSize blk = i * chunkSize blk + chunkSize blk := Nat.succ_mul _ _
          refine ⟨hlen.trans (length_writeAt_of_le hroom), fun p hp => ?_, fun j hij hj => ?_⟩
          · rw [hbefore p (by omega), hkeep p hp]
          · rcases Nat.eq_or_lt_of_le hij with rfl | hlt
            · refine ⟨hcheck, x, hx, fun q hq => ?_⟩
              rw [hbefore _ (by omega), hput q hq]
            · exact hrest j hlt (by omega)

/-- **A byte of the destination is one of a checked chunk**: the one its place belongs to. -/
def FromChunk (lz : Lz4) (blk : Bytes) (un : ℕ) (out : Bytes) (p : ℕ) : Prop :=
  let i := p / chunkSize blk
  i < chunkCount blk ∧ Checked blk i ∧ ∃ x, chunkBytes lz blk un i = some x ∧
    p - i * chunkSize blk < x.length ∧ out[p]? = x[p - i * chunkSize blk]?

/-- The directory's chunks reach over the range: it has the range's last chunk, and none that the
range touches decodes short of the range. -/
def RangeReaches (lz : Lz4) (blk : Bytes) (un a b : ℕ) : Prop :=
  (b - 1) / chunkSize blk < chunkCount blk ∧ ∀ i, a / chunkSize blk ≤ i →
    i ≤ (b - 1) / chunkSize blk →
    ∀ x, chunkBytes lz blk un i = some x →
    min b ((i + 1) * chunkSize blk) - i * chunkSize blk ≤ x.length

/-- A read that succeeds has gone over the range's chunks that the directory has. -/
lemma readChunkedRange_ok {a b : ℕ} (h : readChunkedRange lz blk un a b dst true = ok out) :
    0 < chunkSize blk ∧ 0 < chunkCount blk ∧ chunkCount blk ≤ 2 ^ 20 ∧ out.length = dst.length ∧
      ∀ j, a / chunkSize blk ≤ j → j ≤ (b - 1) / chunkSize blk → j < chunkCount blk →
        Checked blk j ∧ ∃ x, chunkBytes lz blk un j = some x ∧ ∀ q < x.length, out[j * chunkSize blk + q]? = x[q]? := by
  rw [readChunkedRange] at h
  split_ifs at h with h1 h2 h3
  obtain ⟨hcs, hn⟩ := not_or.mp h2
  obtain ⟨hn0, hn1⟩ := not_or.mp hn
  obtain ⟨hlen, -, hchunks⟩ := readChunks_ok _ h
  refine ⟨Nat.pos_of_ne_zero hcs, Nat.pos_of_ne_zero hn0, not_lt.mp hn1, hlen,
    fun j hj hjb hjn => ?_⟩
  exact hchunks j hj (by omega)

lemma fromChunk_iff {a b : ℕ} (hab : a < b) (h : readChunkedRange lz blk un a b dst true = ok out) :
    (∀ p, a ≤ p → p < b → FromChunk lz blk un out p) ↔ RangeReaches lz blk un a b := by
  obtain ⟨hcs, -, -, -, hchunks⟩ := readChunkedRange_ok h
  constructor
  · intro hall
    refine ⟨(hall (b - 1) (by omega) (by omega)).1, fun i hi hib x hx => ?_⟩
    -- the last byte of the range in the chunk
    have hlo : i * chunkSize blk ≤ b - 1 := (Nat.le_div_iff_mul_le hcs).mp hib
    have ha : a < (i + 1) * chunkSize blk := (Nat.div_lt_iff_lt_mul hcs).mp (by omega)
    have hnext : (i + 1) * chunkSize blk = i * chunkSize blk + chunkSize blk := Nat.succ_mul _ _
    have hp : (min b ((i + 1) * chunkSize blk) - 1) / chunkSize blk = i :=
      Nat.div_eq_of_lt_le (by omega) (by omega)
    have hlast := hall (min b ((i + 1) * chunkSize blk) - 1) (by omega) (by omega)
    rw [FromChunk, hp] at hlast
    obtain ⟨-, -, y, hy, hlen, -⟩ := hlast
    rw [hx, Option.some.injEq] at hy
    subst hy
    omega
  · rintro ⟨hlast, hreach⟩ p hap hpb
    have hi : a / chunkSize blk ≤ p / chunkSize blk := Nat.div_le_div_right hap
    have hib : p / chunkSize blk ≤ (b - 1) / chunkSize blk := Nat.div_le_div_right (by omega)
    obtain ⟨hcheck, x, hx, hput⟩ := hchunks _ hi hib (by omega)
    have hlo : p / chunkSize blk * chunkSize blk ≤ p := Nat.div_mul_le_self _ _
    have hhi : p < (p / chunkSize blk + 1) * chunkSize blk := by
      rw [Nat.succ_mul]
      exact Nat.lt_div_mul_add hcs
    have hlen := hreach _ hi hib x hx
    refine ⟨by omega, hcheck, x, hx, by omega, ?_⟩
    have hq := hput (p - p / chunkSize blk * chunkSize blk) (by omega)
    rwa [Nat.add_sub_cancel' hlo] at hq

end Read

/-! ## What was chunked -/

section Written

variable {lz : Lz4} {checksums : Bool} {src : Bytes} {chunk : ℕ}

/-- The chunks as they are stored. -/
def storedChunks (lz : Lz4) (src : Bytes) (chunk : ℕ) : List Bytes :=
  (List.range (divCeil src.length chunk)).map (fun i => storedChunk lz (chunkAt chunk src i))

lemma length_storedChunks : (storedChunks lz src chunk).length = divCeil src.length chunk := by
  rw [storedChunks, List.length_map, List.length_range]

lemma getElem?_storedChunks {i : ℕ} (h : i < divCeil src.length chunk) :
    (storedChunks lz src chunk)[i]? = some (storedChunk lz (chunkAt chunk src i)) := by
  rw [storedChunks, List.getElem?_map, List.getElem?_range h, Option.map_some]

lemma length_storedChunk_le (lz : Lz4) (raw : Bytes) :
    (storedChunk lz raw).length ≤ raw.length := by
  rw [storedChunk, compress]
  split_ifs with h
  · exact h.le
  · exact le_rfl

lemma length_chunkAt (chunk : ℕ) (src : Bytes) (i : ℕ) :
    (chunkAt chunk src i).length = min ((i + 1) * chunk) src.length - i * chunk := by
  rw [chunkAt, length_slice_of_le (min_le_right _ _)]

/-- A chunk is in the source exactly where it begins before the source's end. -/
lemma lt_divCeil_iff (hchunk : 0 < chunk) {i : ℕ} : i < divCeil src.length chunk ↔
    i * chunk < src.length := by
  rw [divCeil, Nat.lt_div_iff_mul_lt hchunk]
  omega

/-- The stored chunks before the `i`-th are no longer than the source before it. -/
lemma length_flatten_take (i : ℕ) :
    ((storedChunks lz src chunk).take i).flatten.length ≤ min (i * chunk) src.length := by
  induction i with
  | zero => simp
  | succ i ih =>
      by_cases hi : i < (storedChunks lz src chunk).length
      · have hget : (storedChunks lz src chunk)[i]? = some (storedChunk lz (chunkAt chunk src i)) :=
          getElem?_storedChunks (length_storedChunks ▸ hi)
        have hstored := length_storedChunk_le lz (chunkAt chunk src i)
        rw [length_chunkAt] at hstored
        rw [List.take_add_one, hget, Option.toList_some, List.flatten_append, List.length_append,
          List.flatten_singleton]
        have hnext : (i + 1) * chunk = i * chunk + chunk := Nat.succ_mul _ _
        omega
      · have hnext : (i + 1) * chunk = i * chunk + chunk := Nat.succ_mul _ _
        rw [List.take_of_length_le (by omega), ← List.take_of_length_le (l := storedChunks lz src chunk) (not_lt.mp hi)]
        omega

/-- The directory's starts. -/
def chunkStarts (lz : Lz4) (src : Bytes) (chunk : ℕ) : List ℕ :=
  (List.range (divCeil src.length chunk + 1)).map
    (fun i => ((storedChunks lz src chunk).take i).flatten.length)

/-- The checksums of the chunks as stored. -/
def chunkSums (lz : Lz4) (checksums : Bool) (src : Bytes) (chunk : ℕ) : List (BitVec 32) :=
  (storedChunks lz src chunk).map (fun s => if checksums then crc32 s else 0)

lemma length_flatMap_words {α : Type} (f : α → ℕ) (l : List α) :
    (l.flatMap (fun a => leBytes 4 (f a))).length = 4 * l.length := by
  induction l with
  | nil => rfl
  | cons a l ih =>
      rw [List.flatMap_cons, List.length_append, length_leBytes, ih, List.length_cons]
      omega

/-- A word of a row of words. -/
lemma u32At_words {α : Type} (f : α → ℕ) {l : List α} {pre post : Bytes} {i p : ℕ} {a : α}
    (hi : l[i]? = some a)
    (hp : p = pre.length + 4 * i) (hlt : f a < 2 ^ 32) :
    u32At (pre ++ (l.flatMap (fun a => leBytes 4 (f a)) ++ post)) p = f a := by
  obtain ⟨hlen, hget⟩ := List.getElem?_eq_some_iff.mp hi
  have hsplit : l.flatMap (fun a => leBytes 4 (f a))
      = (l.take i).flatMap (fun a => leBytes 4 (f a)) ++
      (leBytes 4 (f a) ++ (l.drop (i + 1)).flatMap (fun a => leBytes 4 (f a))) := by
    conv_lhs => rw [← List.take_append_drop i l, List.drop_eq_getElem_cons hlen, hget]
    rw [List.flatMap_append, List.flatMap_cons]
  have hpre : p = (pre ++ (l.take i).flatMap (fun a => leBytes 4 (f a))).length := by
    rw [List.length_append, length_flatMap_words, List.length_take, hp]
    omega
  rw [hsplit, List.append_assoc, ← List.append_assoc pre, List.append_assoc (leBytes 4 (f a))]
  exact u32At_append hpre hlt

lemma chunkTotal_le (hchunk : 0 < chunk) : divCeil src.length chunk ≤ src.length := by
  by_contra hlt
  have h : src.length * chunk < src.length := (lt_divCeil_iff hchunk).mp (not_le.mp hlt)
  have := Nat.le_mul_of_pos_right src.length hchunk
  omega

/-- The words of a written block are its chunks'. -/
structure Laid (lz : Lz4) (checksums : Bool) (src : Bytes) (chunk : ℕ) (blk : Bytes) : Prop where
  size : chunkSize blk = chunk
  count : chunkCount blk = divCeil src.length chunk
  header : chunkHeaderLen (divCeil src.length chunk) ≤ blk.length
  start : ∀ i ≤ divCeil src.length chunk, chunkStart blk i
    = ((storedChunks lz src chunk).take i).flatten.length
  crc : ∀ i < divCeil src.length chunk, storedCrc blk i
    = (if checksums then crc32 (storedChunk lz (chunkAt chunk src i)) else 0).toNat
  raw : ∀ i < divCeil src.length chunk, chunkRaw blk i = storedChunk lz (chunkAt chunk src i) ∧
    chunkHeaderLen (divCeil src.length chunk) + chunkStart blk (i + 1) ≤ blk.length

lemma laid_writeChunkedSz (hword : chunk < 2 ^ 32) (hn : divCeil src.length chunk < 2 ^ 32)
    (hstored : (storedChunks lz src chunk).flatten.length < 2 ^ 32) :
    Laid lz checksums src chunk (writeChunkedSz lz checksums src chunk) := by
  set n := divCeil src.length chunk with hndef
  have hstarts : (chunkStarts lz src chunk).length = n + 1 := by
    rw [chunkStarts, List.length_map, List.length_range]
  have hsums : (chunkSums lz checksums src chunk).length = n := by
    rw [chunkSums, List.length_map, length_storedChunks]
  set blk := writeChunkedSz lz checksums src chunk with hblk
  set post := (chunkSums lz checksums src chunk).flatMap (fun c => leBytes 4 c.toNat) ++
    (storedChunks lz src chunk).flatten with hpost
  have heq : blk = leBytes 4 chunk ++ (leBytes 4 n ++ ((chunkStarts lz src chunk).flatMap (leBytes 4) ++ post)) := rfl
  have hhead : blk = (leBytes 4 chunk ++ leBytes 4 n) ++
    ((chunkStarts lz src chunk).flatMap (leBytes 4) ++ post) := by
    rw [heq, List.append_assoc]
  have hstartsLen : ((chunkStarts lz src chunk).flatMap (leBytes 4)).length = 4 * (n + 1) := by
    rw [length_flatMap_words (fun v => v), hstarts]
  have hsumsLen : ((chunkSums lz checksums src chunk).flatMap (fun c => leBytes 4 c.toNat)).length
    = 4 * n := by
    rw [length_flatMap_words (fun c : BitVec 32 => c.toNat), hsums]
  have htotal : blk.length = chunkHeaderLen n + (storedChunks lz src chunk).flatten.length := by
    rw [hhead, hpost, chunkHeaderLen]
    simp only [List.length_append, length_leBytes, hstartsLen, hsumsLen]
    omega
  have hsize : chunkSize blk = chunk := by
    have h :
        u32At
        ([] ++
        (leBytes 4 chunk ++
        (leBytes 4 n ++ ((chunkStarts lz src chunk).flatMap (leBytes 4) ++ post)))) 0
        = chunk := u32At_append rfl hword
    rwa [List.nil_append, ← heq] at h
  have hcount : chunkCount blk = n := by
    rw [chunkCount, heq]
    exact u32At_append (length_leBytes 4 chunk).symm (by omega)
  have hstart : ∀ i ≤ n, chunkStart blk i
    = ((storedChunks lz src chunk).take i).flatten.length := by
    intro i hi
    have hget : (chunkStarts lz src chunk)[i]?
      = some ((storedChunks lz src chunk).take i).flatten.length := by
      rw [chunkStarts, List.getElem?_map, List.getElem?_range (by omega), Option.map_some]
    have hle : ((storedChunks lz src chunk).take i).flatten.length ≤
      (storedChunks lz src chunk).flatten.length :=
      ((List.take_sublist i _).flatten).length_le
    rw [chunkStart, hhead]
    exact u32At_words (fun v => v) hget (by simp) (by omega)
  have hcrc : ∀ i < n, storedCrc blk i
    = (if checksums then crc32 (storedChunk lz (chunkAt chunk src i)) else 0).toNat := by
    intro i hi
    have hget : (chunkSums lz checksums src chunk)[i]?
        = some (if checksums then crc32 (storedChunk lz (chunkAt chunk src i)) else 0) := by
      rw [chunkSums, List.getElem?_map, getElem?_storedChunks hi, Option.map_some]
    have hsplit : blk = (leBytes 4 chunk ++ (leBytes 4 n ++ (chunkStarts lz src chunk).flatMap (leBytes 4))) ++
        ((chunkSums lz checksums src chunk).flatMap (fun c => leBytes 4 c.toNat) ++
        (storedChunks lz src chunk).flatten) := by
      rw [heq, hpost]
      simp only [List.append_assoc]
    rw [storedCrc, hcount, hsplit]
    refine u32At_words (fun c : BitVec 32 => c.toNat) hget ?_ (BitVec.isLt _)
    simp only [List.length_append, length_leBytes, hstartsLen]
    omega
  refine ⟨hsize, hcount, by rw [← hndef]; omega, hstart, hcrc, fun i hi => ?_⟩
  have hi' : i < (storedChunks lz src chunk).length := by rw [length_storedChunks]; exact hi
  have hgeti : (storedChunks lz src chunk)[i] = storedChunk lz (chunkAt chunk src i) := by
    have h : (storedChunks lz src chunk)[i]? = some (storedChunk lz (chunkAt chunk src i)) :=
      getElem?_storedChunks hi
    rwa [List.getElem?_eq_getElem hi', Option.some.injEq] at h
  have hflat : (storedChunks lz src chunk).flatten = ((storedChunks lz src chunk).take i).flatten ++
      (storedChunk lz (chunkAt chunk src i) ++
      ((storedChunks lz src chunk).drop (i + 1)).flatten) := by
    conv_lhs => rw [← List.take_append_drop i (storedChunks lz src chunk),
      List.drop_eq_getElem_cons hi', hgeti]
    rw [List.flatten_append, List.flatten_cons]
  have hnext : ((storedChunks lz src chunk).take (i + 1)).flatten.length
      = ((storedChunks lz src chunk).take i).flatten.length +
      (storedChunk lz (chunkAt chunk src i)).length := by
    rw [List.take_add_one, getElem?_storedChunks hi, Option.toList_some, List.flatten_append,
      List.length_append, List.flatten_singleton]
  constructor
  · have hsplit : blk = (leBytes 4 chunk ++ leBytes 4 n ++ (chunkStarts lz src chunk).flatMap (leBytes 4) ++
        (chunkSums lz checksums src chunk).flatMap (fun c => leBytes 4 c.toNat) ++
        ((storedChunks lz src chunk).take i).flatten) ++ (storedChunk lz (chunkAt chunk src i) ++
          ((storedChunks lz src chunk).drop (i + 1)).flatten) := by
      rw [heq, hpost, hflat]
      simp only [List.append_assoc]
    have hpre : chunkHeaderLen n + ((storedChunks lz src chunk).take i).flatten.length
        = (leBytes 4 chunk ++ leBytes 4 n ++ (chunkStarts lz src chunk).flatMap (leBytes 4) ++
          (chunkSums lz checksums src chunk).flatMap (fun c => leBytes 4 c.toNat) ++
          ((storedChunks lz src chunk).take i).flatten).length := by
      simp only [List.length_append, length_leBytes, hstartsLen, hsumsLen, chunkHeaderLen]
    rw [chunkRaw, hcount, hstart i hi.le, hstart (i + 1) hi, hnext, ← Nat.add_assoc, hsplit]
    exact slice_append_mid hpre (by rw [← hpre])
  · have hle : ((storedChunks lz src chunk).take (i + 1)).flatten.length ≤
      (storedChunks lz src chunk).flatten.length := by
      rw [hnext, hflat]
      simp only [List.length_append]
      omega
    rw [hstart (i + 1) hi, ← hndef]
    omega

section Laid

variable {blk : Bytes} (laid : Laid lz checksums src chunk blk) (hl : lz.Lossless)

include laid hl

/-- What a written chunk puts in the destination is the source's chunk. -/
lemma Laid.chunkBytes_eq {i : ℕ} (hi : i < divCeil src.length chunk) :
    chunkBytes lz blk src.length i = some (chunkAt chunk src i) := by
  obtain ⟨hraw, -⟩ := laid.raw i hi
  rw [chunkBytes, hraw, laid.size, ← length_chunkAt, storedChunk, compress]
  by_cases hshort : (lz.compress (chunkAt chunk src i)).length < (chunkAt chunk src i).length
  · rw [if_pos hshort, Option.getD_some, if_neg hshort.ne, hl, Option.map_some, List.take_length]
  · rw [if_neg hshort, Option.getD_none, if_pos rfl]

/-- A chunk whose checksum was stored is read. -/
lemma Laid.readChunk_ok {i : ℕ} {dst : Bytes} (hi : i < divCeil src.length chunk)
    (hchunk : 0 < chunk) (hdst : src.length ≤ dst.length)
    (hsum : checksums = true ∨ crc32 (storedChunk lz (chunkAt chunk src i)) = 0) :
    readChunk lz blk src.length true i dst
    = ok (writeAt dst (i * chunk) (chunkAt chunk src i)) := by
  obtain ⟨hraw, hin⟩ := laid.raw i hi
  have hlt : i * chunk < src.length := (lt_divCeil_iff hchunk).mp hi
  have hstarts : ¬chunkStart blk (i + 1) < chunkStart blk i := by
    rw [laid.start (i + 1) hi, laid.start i hi.le, List.take_add_one, List.flatten_append,
      List.length_append]
    omega
  have hcrc : ¬(true = true ∧ (crc32 (chunkRaw blk i)).toNat ≠ storedCrc blk i) := by
    rintro ⟨-, hne⟩
    rw [hraw, laid.crc i hi] at hne
    rcases hsum with hon | hzero
    · rw [if_pos hon] at hne
      exact hne rfl
    · rw [hzero, ite_self] at hne
      exact hne rfl
  have hbytes := laid.chunkBytes_eq hl hi
  have hwidth := length_chunkAt chunk src i
  have hnext : (i + 1) * chunk = i * chunk + chunk := Nat.succ_mul _ _
  rw [chunkBytes, laid.size] at hbytes
  rw [readChunk, laid.count, if_neg (by omega), if_neg hcrc, placeChunk, laid.size,
    subU_eq (by omega), ok_bind]
  by_cases hlen : (chunkRaw blk i).length = min ((i + 1) * chunk) src.length - i * chunk
  · rw [if_pos hlen, Option.some.injEq] at hbytes
    rw [if_pos hlen, hbytes]
    exact copyTo_eq (by omega) (by omega) hwidth
  · rw [if_neg hlen, Option.map_eq_some_iff] at hbytes
    obtain ⟨y, hy, htake⟩ := hbytes
    rw [if_neg hlen, decodeChunk, if_pos (by omega), hy]
    simp only [htake]

/-- Chunks whose checksums were stored are read one after the other. -/
lemma Laid.readChunks_ok (hchunk : 0 < chunk) (m : ℕ) : ∀ {i : ℕ} {dst : Bytes},
    i + m ≤ divCeil src.length chunk → src.length ≤ dst.length →
    (∀ j, i ≤ j → j < i + m → checksums = true ∨ crc32 (storedChunk lz (chunkAt chunk src j)) = 0) →
    ∃ out, readChunks lz blk src.length true m i dst = ok out := by
  induction m with
  | zero => exact fun {i dst} _ _ _ => ⟨dst, rfl⟩
  | succ m ih =>
      intro i dst him hdst hsums
      have hone : readChunk lz blk src.length true i dst = ok (writeAt dst (i * chunk) (chunkAt chunk src i)) :=
        laid.readChunk_ok hl (by omega) hchunk hdst (hsums i le_rfl (by omega))
      have hwidth := length_chunkAt chunk src i
      have hlt : i * chunk < src.length := (lt_divCeil_iff hchunk).mp (by omega)
      have hnext : (i + 1) * chunk = i * chunk + chunk := Nat.succ_mul _ _
      rw [readChunks, hone, ok_bind]
      exact ih (by omega) (by rw [length_writeAt_of_le (by omega)]; exact hdst)
        (fun j hj hjm => hsums j (by omega) (by omega))

/-- **A written block reads back** where its directory holds as many chunks as a reader takes and
the checksums of those the range touches. -/
lemma Laid.read_iff (hchunk : 0 < chunk) {a b : ℕ} {dst : Bytes} (hab : a < b) (hb : b ≤ src.length)
    (hdst : src.length ≤ dst.length) :
    (∃ out, readChunkedRange lz blk src.length a b dst true = ok out ∧ slice out a b
      = slice src a b) ↔
      divCeil src.length chunk ≤ 2 ^ 20 ∧ (checksums = true ∨ ∀ i, a / chunk ≤ i → i ≤ (b - 1) / chunk →
        crc32 (storedChunk lz (chunkAt chunk src i)) = 0) := by
  have hlast : (b - 1) / chunk < divCeil src.length chunk := by
    rw [lt_divCeil_iff hchunk]
    have := Nat.div_mul_le_self (b - 1) chunk
    omega
  have hfirst : a / chunk ≤ (b - 1) / chunk := Nat.div_le_div_right (by omega)
  constructor
  · rintro ⟨out, hread, -⟩
    obtain ⟨-, -, hcount, -, hchunks⟩ := readChunkedRange_ok hread
    rw [laid.count] at hcount hchunks
    rw [laid.size] at hchunks
    refine ⟨hcount, ?_⟩
    by_cases hon : checksums = true
    · exact Or.inl hon
    · refine Or.inr (fun i hi hib => ?_)
      obtain ⟨hcheck, -⟩ := hchunks i hi hib (by omega)
      have hcrc := hcheck.crc
      rw [(laid.raw i (by omega)).1, laid.crc i (by omega), if_neg hon] at hcrc
      exact BitVec.eq_of_toNat_eq hcrc
  · rintro ⟨hcount, hsums⟩
    have hheader := laid.header
    have hok : ∃ out, readChunkedRange lz blk src.length a b dst true = ok out := by
      have hlen : 8 ≤ blk.length := by
        rw [chunkHeaderLen] at hheader
        omega
      have hpos : 0 < divCeil src.length chunk := (Nat.zero_le _).trans_lt hlast
      rw [readChunkedRange, laid.size, laid.count, if_neg (by omega), if_neg (by omega), if_neg (by omega)]
      refine laid.readChunks_ok hl hchunk _ (by omega) hdst (fun j hj hjm => ?_)
      rcases hsums with hon | hzero
      · exact Or.inl hon
      · exact Or.inr (hzero j hj (by omega))
    obtain ⟨out, hread⟩ := hok
    obtain ⟨-, -, -, hlen, hchunks⟩ := readChunkedRange_ok hread
    rw [laid.count, laid.size] at hchunks
    refine ⟨out, hread, List.ext_getElem? (fun q => ?_)⟩
    by_cases hq : a + q < b
    · rw [getElem?_slice hq, getElem?_slice hq]
      -- the byte lies in one chunk of the range
      have hi : a / chunk ≤ (a + q) / chunk := Nat.div_le_div_right (by omega)
      have hib : (a + q) / chunk ≤ (b - 1) / chunk := Nat.div_le_div_right (by omega)
      obtain ⟨-, x, hx, hput⟩ := hchunks _ hi hib (by omega)
      rw [laid.chunkBytes_eq hl (by omega), Option.some.injEq] at hx
      subst hx
      have hlo : (a + q) / chunk * chunk ≤ a + q := Nat.div_mul_le_self _ _
      have hhi : a + q < ((a + q) / chunk + 1) * chunk := by
        rw [Nat.succ_mul]
        exact Nat.lt_div_mul_add hchunk
      have hbyte := hput (a + q - (a + q) / chunk * chunk) (by rw [length_chunkAt]; omega)
      rw [Nat.add_sub_cancel' hlo, chunkAt, getElem?_slice (by omega), Nat.add_sub_cancel' hlo] at hbyte
      exact hbyte
    · rw [List.getElem?_eq_none (by rw [length_slice]; omega), List.getElem?_eq_none (by rw [length_slice]; omega)]

end Laid

/-- **The words of the directory hold what was chunked**: how many chunks there are, where the last
of them ends, and a chunk's length, of which the low word is enough where the source is one chunk
and no longer than that. -/
structure DirectoryFits (lz : Lz4) (src : Bytes) (chunk : ℕ) : Prop where
  size : chunk < 2 ^ 32 ∨ src.length ≤ chunk % 2 ^ 32
  count : divCeil src.length chunk < 2 ^ 32
  stored : (storedChunks lz src chunk).flatten.length < 2 ^ 32

/-- They do where both lengths are a word's. -/
lemma directoryFits_of_lt (hchunk : 0 < chunk) (hword : chunk < 2 ^ 32)
    (hlen : src.length < 2 ^ 32) : DirectoryFits lz src chunk := by
  have hle := @length_flatten_take lz src chunk (divCeil src.length chunk)
  rw [List.take_of_length_le length_storedChunks.le] at hle
  exact ⟨Or.inl hword, (chunkTotal_le hchunk).trans_lt hlen, by omega⟩

/-- A source no longer than a chunk is one chunk. -/
lemma divCeil_one (hsrc : 0 < src.length) (hle : src.length ≤ chunk) :
    divCeil src.length chunk = 1 := by
  rw [divCeil]
  exact Nat.div_eq_of_lt_le (by omega) (by omega)

/-- And that chunk is the source. -/
lemma chunkAt_zero (hle : src.length ≤ chunk) : chunkAt chunk src 0 = src := by
  rw [chunkAt, Nat.zero_mul, Nat.zero_add, Nat.one_mul, min_eq_right hle, slice, List.drop_zero,
    List.take_length]

/-- **What was chunked reads back**, exactly, wherever the directory's words hold it. -/
lemma written_read_iff (hl : lz.Lossless) (hchunk : 0 < chunk) (hfits : DirectoryFits lz src chunk)
    {a b : ℕ} {dst : Bytes} (hab : a < b) (hb : b ≤ src.length) (hdst : src.length ≤ dst.length) :
    (∃ out, readChunkedRange lz (writeChunkedSz lz checksums src chunk) src.length a b dst true
        = ok out ∧ slice out a b = slice src a b) ↔
      divCeil src.length chunk ≤ 2 ^ 20 ∧ (checksums = true ∨ ∀ i, a / chunk ≤ i → i ≤ (b - 1) / chunk →
        crc32 (storedChunk lz (chunkAt chunk src i)) = 0) := by
  by_cases hword : chunk < 2 ^ 32
  · exact (laid_writeChunkedSz hword hfits.count hfits.stored).read_iff hl hchunk hab hb hdst
  · -- one chunk, and its low word writes the same block
    have hle : src.length ≤ chunk % 2 ^ 32 := hfits.size.resolve_left hword
    have hle' : src.length ≤ chunk := hle.trans (Nat.mod_le _ _)
    have hlow : chunk % 2 ^ 32 < 2 ^ 32 := Nat.mod_lt _ (by decide)
    have hone := divCeil_one (by omega) hle
    have hone' := divCeil_one (by omega) hle'
    have hsame : writeChunkedSz lz checksums src chunk
      = writeChunkedSz lz checksums src (chunk % 2 ^ 32) := by
      have hbytes : leBytes 4 (chunk % 2 ^ 32) = leBytes 4 chunk := leBytes_mod 4 chunk
      simp only [writeChunkedSz, hone, hone', hbytes, List.range_one, List.map_singleton,
        chunkAt_zero hle, chunkAt_zero hle']
    have hfits' : DirectoryFits lz src (chunk % 2 ^ 32) :=
      directoryFits_of_lt (by omega) hlow (by omega)
    rw [hsame, (laid_writeChunkedSz hlow hfits'.count hfits'.stored).read_iff hl (by omega) hab hb
      hdst, hone, hone',
      Nat.div_eq_of_lt (by omega), Nat.div_eq_of_lt (by omega), Nat.div_eq_of_lt (by omega),
      Nat.div_eq_of_lt (by omega)]
    refine and_congr_right
      (fun _ => or_congr_right (forall_congr' (fun i => forall₂_congr (fun _ hi => ?_))))
    rw [Nat.le_zero.mp hi, chunkAt_zero hle, chunkAt_zero hle']

end Written

/-- **A range read, exactly.**  Of any block whatever: where the read succeeds, the range is bytes
of chunks whose stored checksum matched if and only if the directory's chunks reach over it.  Of a
block written from a source the directory's words hold: the range reads back if and only if the
chunks are no more than a reader takes, and their checksums were stored or happen to be what is
stored for none. -/
theorem readChunkedRange_exact (lz : Lz4) :
    (∀ (blk : Bytes) (un a b : ℕ) (dst out : Bytes), a < b → b ≤ un →
      readChunkedRange lz blk un a b dst true = ok out →
      ((∀ p, a ≤ p → p < b → FromChunk lz blk un out p) ↔ RangeReaches lz blk un a b)) ∧
    (∀ (checksums : Bool) (src : Bytes) (chunk a b : ℕ) (dst : Bytes), lz.Lossless → 1 ≤ chunk →
      DirectoryFits lz src chunk → a < b → b ≤ src.length → src.length ≤ dst.length →
      ((∃ out, readChunkedRange lz (writeChunkedSz lz checksums src chunk) src.length a b dst true
          = ok out ∧ slice out a b = slice src a b) ↔
        divCeil src.length chunk ≤ 2 ^ 20 ∧ (checksums = true ∨ ∀ i, a / chunk ≤ i → i ≤ (b - 1) / chunk →
          crc32 (storedChunk lz (chunkAt chunk src i)) = 0))) := by
  constructor
  · intro blk un a b dst out hab _ hread
    exact fromChunk_iff hab hread
  · intro checksums src chunk a b dst hl hchunk hfits hab hb hdst
    exact written_read_iff hl hchunk hfits hab hb hdst

/-- A codec that shortens nothing, as the block codec does not shorten a byte. -/
def verbatimLz4 : Lz4 := ⟨fun src => src, fun src _ => some src⟩

lemma verbatimLz4_lossless : verbatimLz4.Lossless := fun _ => rfl

/-- Two chunks of a byte. -/
def twoChunks : Bytes := writeChunkedSz verbatimLz4 true [5, 6] 1

/-- Two chunks of a byte read whole. -/
theorem readChunkedRange_exact_two :
    ((∀ p, 0 ≤ p → p < 2 → FromChunk verbatimLz4 twoChunks 2 [5, 6] p) ↔
    RangeReaches verbatimLz4 twoChunks 2 0 2) ∧
    ((∃ out, readChunkedRange verbatimLz4 (writeChunkedSz verbatimLz4 true [5, 6] 1)
          ([5, 6] : Bytes).length 0 2 [0, 0] true = ok out ∧ slice out 0 2 = slice [5, 6] 0 2) ↔
        divCeil ([5, 6] : Bytes).length 1 ≤ 2 ^ 20 ∧ (true = true ∨ ∀ i, 0 / 1 ≤ i → i ≤ (2 - 1) / 1 →
          crc32 (storedChunk verbatimLz4 (chunkAt 1 [5, 6] i)) = 0)) :=
  ⟨(readChunkedRange_exact verbatimLz4).1 twoChunks 2 0 2 [0, 0] [5, 6] (by decide) (by decide)
    (by decide +kernel),
    (readChunkedRange_exact verbatimLz4).2 true [5, 6] 1 0 2 [0, 0] verbatimLz4_lossless (by decide)
      (directoryFits_of_lt (by decide) (by decide) (by decide)) (by decide) (by decide) (by decide)⟩

/-- The count of the same block damaged from two to one: the second byte is asked for, and the
destination's own is what is read. -/
theorem readChunkedRange_skips :
    ∃ out, readChunkedRange verbatimLz4 (writeAt twoChunks 4 [1]) 2 1 2 [9, 9] true = ok out ∧
      out = [9, 9] ∧
      ¬∀ p, 1 ≤ p → p < 2 → FromChunk verbatimLz4 (writeAt twoChunks 4 [1]) 2 out p := by
  refine ⟨[9, 9], by decide +kernel, rfl, fun hall => ?_⟩
  have hsize : chunkSize (writeAt twoChunks 4 [1]) = 1 := by decide +kernel
  have hcount : chunkCount (writeAt twoChunks 4 [1]) = 1 := by decide +kernel
  have hin := (hall 1 le_rfl (by decide)).1
  rw [hsize, hcount] at hin
  exact absurd hin (by decide)

end Supdb

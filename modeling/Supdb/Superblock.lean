import Supdb.Lib.Bytes

/-!
# The superblock page

The first page of a segment holds two copies of the superblock, which names the key section and the
block table, and behind them an *extension* with every offset a sparse open plans itself from.  Both
are closed by an FNV-1a checksum.
-/

namespace Supdb

open StorageLib

/-- `fnv64` and `key_hash`: FNV-1a, on 64 bits. -/
def fnv64 (bytes : Bytes) : ℕ :=
  bytes.foldl (fun h b => ((h ^^^ b.toNat) * 0x1000000001b3) % 2 ^ 64) 0xcbf29ce484222325

/-- Bytes of the superblock page. -/
def SUPER : ℕ := 4096

namespace Format

/-- The superblock's mark and version. -/
def MAGIC : ℕ := 0x5355504442000007

/-- The stride between the two superblocks. -/
def SLOT : ℕ := 512

/-- Bytes of a superblock. -/
def SUPER_BYTES : ℕ := 144

/-- Words of a superblock before its mark. -/
def SB_FIELDS : ℕ := 16

/-- Where the extension lies in the page. -/
def SX_OFF : ℕ := 1024

def SX_MAGIC : ℕ := 0x5355504442535831

/-- Words of the extension. -/
def SX_WORDS : ℕ := 20

/-- Bytes of the section header the extension copies. -/
def HEADER_BYTES : ℕ := 192

/-- Bytes of the extension: the words, the header, the checksum. -/
def SX_BYTES : ℕ := SX_WORDS * 8 + HEADER_BYTES + 8

end Format

open Format

/-- `superblock`: the fields, the mark and their checksum. -/
def superblock (fields : List ℕ) : Bytes :=
  let body := fields.flatMap (leBytes 8) ++ leBytes 8 MAGIC
  body ++ leBytes 8 (fnv64 body)

/-- A decoded superblock. -/
structure Super where
  generation : ℕ
  timestamp : ℕ
  keyOff : ℕ
  keyStored : ℕ
  keyUncompressed : ℕ
  blkOff : ℕ
  blkStored : ℕ
  blkUncompressed : ℕ
  highWater : ℕ
  logOff : ℕ
  logLen : ℕ
  deriving DecidableEq, Repr

/-- The superblock some words make. -/
def Super.ofWords (w : ℕ → ℕ) : Super :=
  { generation := w 0, timestamp := w 2, keyOff := w 3, keyStored := w 4, keyUncompressed := w 5
    blkOff := w 6, blkStored := w 7, blkUncompressed := w 8, highWater := w 12, logOff := w 13
    logLen := w 14 }

/-- `Super::decode`. -/
def Super.decode (buf : Bytes) : Option Super :=
  if buf.length < SUPER_BYTES then none
  else
    let f := fun i => u64At buf (i * 8)
    if u64At buf (SB_FIELDS * 8) ≠ MAGIC then none
    else
      let body := (List.range SB_FIELDS).flatMap (fun i => leBytes 8 (f i)) ++ leBytes 8 MAGIC
      if u64At buf (SB_FIELDS * 8 + 8) ≠ fnv64 body then none
      else some (.ofWords f)

/-- Which of the two superblocks stands: the valid one of the higher generation. -/
def pickSlot : Option Super → Option Super → Option Super
  | some x, some y => some (if y.generation ≤ x.generation then x else y)
  | some x, none => some x
  | none, y => y

/-- `pick_super`: the superblock of an object of `objectLen` bytes that starts with `head`. -/
def pickSuper (head : Bytes) (objectLen : ℕ) : Except String Super :=
  if objectLen < SUPER then .error "supdb: file too short to hold a superblock"
  else if head.length < SLOT + SUPER_BYTES then
    let want := SLOT + SUPER_BYTES
    let n := head.length
    .error s!"wanted {want} bytes at 0 of a {n}-byte object"
  else
    match pickSlot (Super.decode (slice head 0 SUPER_BYTES))
        (Super.decode (slice head SLOT (SLOT + SUPER_BYTES))) with
    | none => .error "supdb: no valid supdb checkpoint"
    | some sb =>
        if objectLen < sb.highWater then
          .error "supdb: the superblock describes more bytes than the object holds: it is truncated"
        else if sb.keyStored ≠ sb.keyUncompressed ∨ sb.blkStored ≠ sb.blkUncompressed then
          .error "this file's index sections are compressed, so they cannot be read where they lie. Write it with the default options, which store both sections verbatim"
        else .ok sb

/-! ## The extension -/

/-- A superblock extension: where each region lies in the object, and the copies in the head
reserve. -/
structure SuperExt where
  fence : ℕ × ℕ
  dir : ℕ × ℕ
  hash : ℕ × ℕ
  row : ℕ × ℕ
  tableCopy : Option (ℕ × ℕ)
  fenceCopy : Option (ℕ × ℕ × BitVec 32)
  rowCopy : Option ℕ
  dirCopy : Option (ℕ × BitVec 32)
  payload : Option ℕ
  header : Bytes
  deriving DecidableEq, Repr

/-- The words of an extension. -/
def SuperExt.words (x : SuperExt) (generation : ℕ) : List ℕ :=
  let (tco, tcl) := x.tableCopy.getD (0, 0)
  let (fco, fcl, fcc) := x.fenceCopy.getD (0, 0, 0)
  [SX_MAGIC, generation, x.fence.1, x.fence.2, x.dir.1, x.dir.2, x.hash.1, x.hash.2, x.row.1,
    x.row.2, tco, tcl, fco, fcl, fcc.toNat, x.rowCopy.getD 0, (x.dirCopy.map Prod.fst).getD 0,
    (x.dirCopy.map (fun d => d.2.toNat)).getD 0, x.payload.getD 0, 0]

/-- `encode_super_ext`. -/
def encodeSuperExt (x : SuperExt) (generation : ℕ) : Bytes :=
  let body := (x.words generation).flatMap (leBytes 8) ++ x.header
  body ++ leBytes 8 (fnv64 body)

/-- The extension some words and a header make. -/
def SuperExt.ofWords (w : ℕ → ℕ) (header : Bytes) : SuperExt :=
  { fence := (w 2, w 3), dir := (w 4, w 5), hash := (w 6, w 7), row := (w 8, w 9)
    tableCopy := if 0 < w 11 then some (w 10, w 11) else none
    fenceCopy := if 0 < w 13 then some (w 12, w 13, BitVec.ofNat 32 (w 14)) else none
    rowCopy := if 0 < w 15 then some (w 15) else none
    dirCopy := if 0 < w 16 then some (w 16, BitVec.ofNat 32 (w 17)) else none
    payload := if 0 < w 18 then some (w 18) else none
    header := header }

/-- `decode_super_ext`: the extension of a page, where it holds one of this generation. -/
def decodeSuperExt (page : Bytes) (generation : ℕ) : Option SuperExt := do
  let buf ← getRange page SX_OFF (SX_OFF + SX_BYTES)
  let w := fun i => u64At buf (i * 8)
  if w 0 ≠ SX_MAGIC ∨ w 1 ≠ generation then none
  else if fnv64 (buf.take (SX_BYTES - 8)) ≠ u64At buf (SX_BYTES - 8) then none
  else
    some (.ofWords w (slice buf (SX_WORDS * 8) (SX_WORDS * 8 + HEADER_BYTES)))

/-! ## What is read back -/

lemma fnv64_lt (bytes : Bytes) : fnv64 bytes < 2 ^ 64 := by
  induction bytes using List.reverseRecOn with
  | nil => decide
  | append_singleton bytes b ih =>
      rw [fnv64, List.foldl_append, List.foldl_cons, List.foldl_nil]
      exact Nat.mod_lt _ (Nat.two_pow_pos 64)

lemma length_superblock {fields : List ℕ} (hfields : fields.length = SB_FIELDS) :
    (superblock fields).length = SUPER_BYTES := by
  simp only [superblock, List.length_append, length_flatMap_leBytes, length_leBytes, hfields]
  rfl

/-- **A superblock is read back**, word by word. -/
lemma Super.decode_superblock {fields : List ℕ} (hfields : fields.length = SB_FIELDS) :
    Super.decode (superblock fields) = some (.ofWords (fun i => fields.getD i 0 % 2 ^ 64)) := by
  have hlen := length_superblock hfields
  set body := fields.flatMap (leBytes 8) ++ leBytes 8 MAGIC with hbody
  have hwords : (fields.flatMap (leBytes 8)).length = SB_FIELDS * 8 := by
    rw [length_flatMap_leBytes, hfields]
  have hread : ∀ i, i < SB_FIELDS →
      u64At (superblock fields) (i * 8) = fields.getD i 0 % 2 ^ 64 := by
    intro i hi
    have hi' : i < fields.length := hfields ▸ hi
    rw [superblock, List.append_assoc, u64At_flatMap fields _ hi', List.getD_eq_getElem?_getD,
      List.getElem?_eq_getElem hi']
    rfl
  have hmark : u64At (superblock fields) (SB_FIELDS * 8) = MAGIC := by
    rw [superblock, List.append_assoc]
    exact u64At_append hwords.symm (by decide)
  have hsum : u64At (superblock fields) (SB_FIELDS * 8 + 8) = fnv64 body := by
    have h := @u64At_append body [] _ (SB_FIELDS * 8 + 8)
      (by rw [hbody, List.length_append, hwords, length_leBytes]) (fnv64_lt body)
    rwa [List.append_nil] at h
  -- the words read back spell the same bytes
  have hsame : (List.range SB_FIELDS).flatMap
      (fun i => leBytes 8 (u64At (superblock fields) (i * 8))) = fields.flatMap (leBytes 8) := by
    have hrange : fields = (List.range SB_FIELDS).map (fun i => fields.getD i 0) := by
      refine List.ext_getElem (by simp [hfields]) (fun i hi _ => ?_)
      simp [List.getD_eq_getElem?_getD, List.getElem?_eq_getElem hi]
    conv_rhs => rw [hrange, List.flatMap_map]
    refine List.flatMap_congr (fun i hi => ?_)
    rw [hread i (List.mem_range.mp hi)]
    exact leBytes_mod 8 _
  rw [Super.decode, if_neg (by rw [hlen]; exact lt_irrefl _)]
  dsimp only
  rw [if_neg (by rw [hmark]; simp), hsame, ← hbody, if_neg (by rw [hsum]; simp)]
  simp only [hread _ (by decide : 0 < SB_FIELDS), hread _ (by decide : 2 < SB_FIELDS),
    hread _ (by decide : 3 < SB_FIELDS), hread _ (by decide : 4 < SB_FIELDS),
    hread _ (by decide : 5 < SB_FIELDS), hread _ (by decide : 6 < SB_FIELDS),
    hread _ (by decide : 7 < SB_FIELDS), hread _ (by decide : 8 < SB_FIELDS),
    hread _ (by decide : 12 < SB_FIELDS), hread _ (by decide : 13 < SB_FIELDS),
    hread _ (by decide : 14 < SB_FIELDS), Super.ofWords]

/-- **A page that holds one superblock twice gives it**, of an object as long as it says whose
sections are stored as they are. -/
lemma pickSuper_eq {head : Bytes} {fields : List ℕ} {objectLen : ℕ}
    (hfields : fields.length = SB_FIELDS) (hfirst : HasAt head 0 (superblock fields))
    (hsecond : HasAt head SLOT (superblock fields)) (hlong : SUPER ≤ objectLen)
    (hwater : fields.getD 12 0 % 2 ^ 64 ≤ objectLen)
    (hkey : fields.getD 4 0 = fields.getD 5 0) (hblk : fields.getD 7 0 = fields.getD 8 0) :
    pickSuper head objectLen = .ok (.ofWords (fun i => fields.getD i 0 % 2 ^ 64)) := by
  have hlen := length_superblock hfields
  have hne : superblock fields ≠ [] := fun h => by
    rw [h] at hlen
    exact absurd hlen (by decide)
  have hhead := hsecond.le hne
  rw [HasAt, hlen] at hfirst hsecond
  rw [hlen] at hhead
  rw [pickSuper, if_neg (by omega), if_neg (by omega)]
  rw [Nat.zero_add] at hfirst
  rw [hfirst, hsecond, Super.decode_superblock hfields]
  simp only [pickSlot, le_refl, if_true]
  rw [if_neg (by simp only [Super.ofWords]; omega),
    if_neg (by simp only [Super.ofWords, hkey, hblk]; simp)]

lemma SuperExt.length_words (x : SuperExt) (generation : ℕ) :
    (x.words generation).length = SX_WORDS := rfl

lemma length_encodeSuperExt {x : SuperExt} (generation : ℕ)
    (hheader : x.header.length = HEADER_BYTES) :
    (encodeSuperExt x generation).length = SX_BYTES := by
  simp only [encodeSuperExt, List.length_append, length_flatMap_leBytes, SuperExt.length_words,
    length_leBytes, hheader]
  rfl

/-- **An extension is read back** where it was written, word by word. -/
lemma decodeSuperExt_eq {page : Bytes} {x : SuperExt} {generation : ℕ}
    (hat : HasAt page SX_OFF (encodeSuperExt x generation))
    (hheader : x.header.length = HEADER_BYTES) (hgen : generation < 2 ^ 64) :
    decodeSuperExt page generation =
      some (.ofWords (fun i => (x.words generation).getD i 0 % 2 ^ 64) x.header) := by
  have hlen := length_encodeSuperExt generation hheader
  have hne : encodeSuperExt x generation ≠ [] := by
    intro h
    rw [h] at hlen
    exact absurd hlen (by decide)
  have hin := hat.le hne
  rw [HasAt, hlen] at hat
  rw [hlen] at hin
  set ws := x.words generation with hws
  have hwords : ws.length = SX_WORDS := rfl
  set buf := encodeSuperExt x generation with hbuf
  have hsplit : buf = ws.flatMap (leBytes 8) ++ (x.header ++
      leBytes 8 (fnv64 (ws.flatMap (leBytes 8) ++ x.header))) := by
    rw [hbuf, encodeSuperExt, List.append_assoc]
  have hbody : (ws.flatMap (leBytes 8)).length = SX_WORDS * 8 := by
    rw [length_flatMap_leBytes, hwords]
  have hread : ∀ i, i < SX_WORDS → u64At buf (i * 8) = ws.getD i 0 % 2 ^ 64 := by
    intro i hi
    have hi' : i < ws.length := hwords ▸ hi
    rw [hsplit, u64At_flatMap ws _ hi', List.getD_eq_getElem?_getD, List.getElem?_eq_getElem hi']
    rfl
  have hmark : u64At buf (0 * 8) = SX_MAGIC := (hread 0 (by decide)).trans rfl
  have hgeneration : u64At buf (1 * 8) = generation :=
    (hread 1 (by decide)).trans (Nat.mod_eq_of_lt hgen)
  have htake : buf.take (SX_BYTES - 8) = ws.flatMap (leBytes 8) ++ x.header := by
    rw [hsplit, ← List.append_assoc]
    refine List.take_left' ?_
    rw [List.length_append, hbody, hheader]
    rfl
  have hsum : fnv64 (buf.take (SX_BYTES - 8)) = u64At buf (SX_BYTES - 8) := by
    have hat : u64At buf (SX_BYTES - 8) = fnv64 (ws.flatMap (leBytes 8) ++ x.header) := by
      rw [hsplit, ← List.append_assoc]
      have h := @u64At_append (ws.flatMap (leBytes 8) ++ x.header) [] _
        (SX_BYTES - 8) (by rw [List.length_append, hbody, hheader]; rfl)
        (fnv64_lt (ws.flatMap (leBytes 8) ++ x.header))
      rwa [List.append_nil] at h
    rw [htake, hat]
  have hheaderAt : slice buf (SX_WORDS * 8) (SX_WORDS * 8 + HEADER_BYTES) = x.header := by
    rw [hsplit]
    exact slice_append_mid hbody.symm (by rw [hbody, hheader])
  rw [decodeSuperExt, getRange_eq_some.mpr ⟨Nat.le_add_right _ _, hin, hat⟩, some_bind_eq]
  dsimp only
  rw [if_neg (by rw [hmark, hgeneration]; simp), if_neg (by simp [hsum]), hheaderAt]
  simp only [hread _ (by decide : 2 < SX_WORDS), hread _ (by decide : 3 < SX_WORDS),
    hread _ (by decide : 4 < SX_WORDS), hread _ (by decide : 5 < SX_WORDS),
    hread _ (by decide : 6 < SX_WORDS), hread _ (by decide : 7 < SX_WORDS),
    hread _ (by decide : 8 < SX_WORDS), hread _ (by decide : 9 < SX_WORDS),
    hread _ (by decide : 10 < SX_WORDS), hread _ (by decide : 11 < SX_WORDS),
    hread _ (by decide : 12 < SX_WORDS), hread _ (by decide : 13 < SX_WORDS),
    hread _ (by decide : 14 < SX_WORDS), hread _ (by decide : 15 < SX_WORDS),
    hread _ (by decide : 16 < SX_WORDS), hread _ (by decide : 17 < SX_WORDS),
    hread _ (by decide : 18 < SX_WORDS), SuperExt.ofWords]

end Supdb

import Supdb.PageFormat
import Supdb.Record

/-!
# The record coding of a group

A group's records are laid end to end, each a whole number of words.  The record coding holds them
one by one: where each begins, and of each its head as what it does not share with the first
record's, its length, and its tail, compressed against the first record's where that is shorter.

* **`encodeRecordGroup`** – the coding written into an output.
* `codedRec` – a record's fields, located and checked.
* **`decodeRecordGroup`**, **`decodeRecord`** – the images back, all of them or one.
* **`recordGroupSeek`**, **`checkCodedGroup`** – a key searched for, and a group checked, in the
  coded bytes.
* `groupSeek`, `checkGroup` – the same over the decoded bytes.

LZ4 with a dictionary is a parameter, `DictLz4`: it is not this repository's.
-/

namespace Supdb

open StorageLib

/-! ## Dictionary LZ4 -/

/-- The two functions of `lz4_flex` that take a dictionary.  The compressor leaves something in all
of the room it is given, and says how much of it is the block where there is one; the decoder gives
the bytes a block decodes to in at most the room given. -/
structure DictLz4 where
  compressIntoWithDict (tail room dict : Bytes) : Bytes × Option ℕ
  decompressIntoWithDict (block : Bytes) (room : ℕ) (dict : Bytes) : Option Bytes

/-- A block decodes to what it was made of, into an output of that length. -/
structure DictLz4.Lossless (lz4 : DictLz4) : Prop where
  room : ∀ tail room dict, (lz4.compressIntoWithDict tail room dict).1.length = room.length
  fits : ∀ tail room dict n, (lz4.compressIntoWithDict tail room dict).2 = some n → n ≤ room.length
  back : ∀ tail room dict n, (lz4.compressIntoWithDict tail room dict).2 = some n →
    lz4.decompressIntoWithDict ((lz4.compressIntoWithDict tail room dict).1.take n) tail.length dict
    = some tail

/-! ## Writing -/

/-- `put_var`: a varint at `pos` of an output, and where it ends. -/
def putVar (out : Bytes) (pos v : ℕ) : Option (Bytes × ℕ) :=
  if out.length ≤ pos then none
  else if v / 128 = 0 then some (writeAt out pos [UInt8.ofNat (v % 128)], pos + 1)
  else putVar (writeAt out pos [UInt8.ofNat (v % 128 + 128)]) (pos + 1) (v / 128)
termination_by v
decreasing_by omega

/-- The loop of `get_var`: the bits so far and the shift of the next. -/
def getVarFrom (b : Bytes) (pos v shift : ℕ) : Option (ℕ × ℕ) :=
  match b[pos]? with
  | none => none
  | some x =>
      let v := v ||| ((x.toNat &&& 0x7f) <<< shift)
      if x.toNat < 0x80 then some (v, pos + 1)
      else if 28 < shift + 7 then none
      else getVarFrom b (pos + 1) v (shift + 7)
termination_by 35 - shift
decreasing_by omega

/-- `get_var`: the varint at `pos`, and where it ends. -/
def getVar (b : Bytes) (pos : ℕ) : Option (ℕ × ℕ) := getVarFrom b pos 0 0

/-- Bytes copied to `pos` of an output that has room for them there. -/
def putSlice (out : Bytes) (pos : ℕ) (x : Bytes) : Option Bytes :=
  if pos + x.length ≤ out.length then some (writeAt out pos x) else none

/-- `image_head_len`: the length of an image's two header halves and its key. -/
def imageHeadLen (img : Bytes) : Option ℕ := do
  let klen ← readWord 2 img 0
  if 4 + klen ≤ img.length then some (4 + klen) else none

/-- How far two strings agree. -/
def sharedLen (a b : Bytes) : ℕ := ((a.zip b).takeWhile (fun p => p.1 = p.2)).length

/-- The longest a tail's length field is taken to be. -/
def FIELD_MAX : ℕ := 3

/-- The part of a turn of `encode_record_group` that writes the head and the image's length. -/
def encodeHead (img0 : Bytes) (head0 i : ℕ) (img : Bytes) (head : ℕ) (out : Bytes) (pos : ℕ) :
    Option (Bytes × ℕ) := do
  let plen := if i = 0 then 0 else sharedLen (img.take head) (img0.take head0)
  let (out, pos) ← putVar out pos plen
  let (out, pos) ← putVar out pos (head - plen)
  let out ← putSlice out pos (slice img plen head)
  putVar out (pos + (head - plen)) img.length

/-- The compressor's answer over a tail, where it is asked; the room after it. -/
def tailBlock (lz4 : DictLz4) (tail0 : Bytes) (rawTails : Bool) (i : ℕ) (tail room : Bytes) :
    Bytes × Option ℕ :=
  if i = 0 ∨ tail.length < 8 ∨
    rawTails then (room, none) else lz4.compressIntoWithDict tail room tail0

/-- The length a tail is stored with: the block's where it is shorter. -/
def storedLen (made : Option ℕ) (tail : ℕ) : ℕ :=
  match made with
  | some c => if c < tail then c else tail
  | none => tail

/-- The part of a turn that writes the tail, compressed where that is shorter.  Its length goes
before it, so the compressor's room is what lies behind that field at its longest, and the block is
moved down to the field as written. -/
def encodeTail (lz4 : DictLz4) (tail0 : Bytes) (rawTails : Bool) (i : ℕ) (tail out : Bytes)
    (pos : ℕ) : Option (Bytes × ℕ) :=
  if out.length < pos + FIELD_MAX then none
  else
    let block := tailBlock lz4 tail0 rawTails i tail (out.drop (pos + FIELD_MAX))
    let out := writeAt out (pos + FIELD_MAX) block.1
    let clen := storedLen block.2 tail.length
    if clen < tail.length then do
      let (out, fieldAt) ← putVar out pos clen
      some (writeAt out fieldAt (slice out (pos + FIELD_MAX) (pos + FIELD_MAX + clen)), fieldAt + clen)
    else do
      let (out, pos) ← putVar out pos clen
      let out ← putSlice out pos tail
      some (out, pos + clen)

/-- One turn of `encode_record_group`: record `i` written at `pos`, and where it ends. -/
def encodeRec (lz4 : DictLz4) (img0 : Bytes) (head0 : ℕ) (tail0 : Bytes) (rawTails : Bool) (i : ℕ)
    (img : Bytes) (out : Bytes) (pos : ℕ) : Option (Bytes × ℕ) := do
  if img = [] ∨ ¬4 ∣ img.length then none
  else if 2 ^ 16 - 1 < pos then none
  else do
    let out := writeAt out (2 * i) (leBytes 2 pos)
    let head ← imageHeadLen img
    let (out, pos) ← encodeHead img0 head0 i img head out pos
    encodeTail lz4 tail0 rawTails i (img.drop (alignUp head 4)) out pos

/-- The loop of `encode_record_group` over the images' ends, from record `i` on. -/
def encodeRecs (lz4 : DictLz4) (imgs img0 : Bytes) (head0 : ℕ) (tail0 : Bytes) (rawTails : Bool) :
    List ℕ → ℕ → ℕ → Bytes → ℕ → Option (Bytes × ℕ)
  | [], _, _, out, pos => some (out, pos)
  | stop :: ends, i, start, out, pos => do
      let img ← getRange imgs start stop
      let (out, pos) ← encodeRec lz4 img0 head0 tail0 rawTails i img out pos
      encodeRecs lz4 imgs img0 head0 tail0 rawTails ends (i + 1) stop out pos

/-- `encode_record_group`: the output after it, and the payload's length. -/
def encodeRecordGroup (lz4 : DictLz4) (imgs : Bytes) (ends : List ℕ) (out : Bytes)
    (rawTails : Bool) : Option (Bytes × ℕ) := do
  if ends = [] ∨ ZMAX_COUNT < ends.length ∨ out.length < 2 * ends.length then none
  else do
    let end0 ← ends[0]?
    let img0 ← getRange imgs 0 end0
    let head0 ← imageHeadLen img0
    let tail0 ← getRange img0 (alignUp head0 4) img0.length
    encodeRecs lz4 imgs img0 head0 tail0 rawTails ends 0 0 out (2 * ends.length)

/-! ## Reading -/

/-- A coded record's fields. -/
structure CodedRec where
  plen : ℕ
  suffix : Bytes
  ulen : ℕ
  tail : Bytes
  deriving Repr, DecidableEq

/-- `head_len`. -/
def CodedRec.headLen (r : CodedRec) : ℕ := r.plen + r.suffix.length

/-- `tail_at`: where the tail begins in the image. -/
def CodedRec.tailAt (r : CodedRec) : ℕ := alignUp r.headLen 4

def REC_CUT : ZError := .walk "a coded record does not parse"

/-- The fields of the record at `pos`, not yet checked against each other. -/
def codedFields (payload : Bytes) (pos : ℕ) : Option CodedRec := do
  let (plen, pos) ← getVar payload pos
  let (slen, pos) ← getVar payload pos
  let suffix ← getRange payload pos (pos + slen)
  let (ulen, pos) ← getVar payload (pos + slen)
  let (clen, pos) ← getVar payload pos
  let tail ← getRange payload pos (pos + clen)
  some ⟨plen, suffix, ulen, tail⟩

/-- `coded_rec`: record `i`'s fields, located and checked. -/
def codedRec (payload : Bytes) (count i : ℕ) : Except ZError CodedRec :=
  if count ≤ i ∨ ZMAX_COUNT < count ∨ payload.length < 2 * count then .error REC_CUT
  else
    let pos := half payload (2 * i)
    if pos < 2 * count then .error REC_CUT
    else
      match codedFields payload pos with
      | none => .error REC_CUT
      | some r =>
          if r.headLen < 4 ∨ r.ulen = 0 ∨ ¬4 ∣ r.ulen ∨ ZMAX_ULEN < r.ulen ∨ r.ulen < r.tailAt
              ∨ r.ulen - r.tailAt < r.tail.length then .error REC_CUT
          else if i = 0 ∧ (r.plen ≠ 0 ∨ r.tail.length ≠ r.ulen - r.tailAt) then
            .error (.walk "a coded group's first record is not stored whole")
          else .ok r

/-- `coded_first`: record 0's head and its tail. -/
def codedFirst (payload : Bytes) (count : ℕ) : Except ZError (Bytes × Bytes) := do
  let r0 ← codedRec payload count 0
  .ok (r0.suffix, r0.tail)

/-- `decode_record_into`: a record's image. -/
def decodeRecordInto (lz4 : DictLz4) (head0 tail0 : Bytes) (r : CodedRec) : Except ZError Bytes :=
  if head0.length < r.plen then .error (.walk "a coded record's prefix is longer than the first head")
  else
    let front := head0.take r.plen ++ r.suffix ++ List.replicate (r.tailAt - r.headLen) 0
    let want := r.ulen - r.tailAt
    if r.tail.length = want then .ok (front ++ r.tail)
    else
      match lz4.decompressIntoWithDict r.tail want tail0 with
      | none => .error .decode
      | some tail => if tail.length ≠ want then .error .decodedLen else .ok (front ++ tail)

/-- `decode_record`: record `i`'s image. -/
def decodeRecord (lz4 : DictLz4) (payload : Bytes) (count i : ℕ) : Except ZError Bytes := do
  let (head0, tail0) ← codedFirst payload count
  let r ← codedRec payload count i
  decodeRecordInto lz4 head0 tail0 r

/-- The loop of `decode_record_group` over `n` records from `i` on, `done` being what is decoded. -/
def decodeRecs (lz4 : DictLz4) (payload : Bytes) (count ulen : ℕ) (head0 tail0 : Bytes) :
    ℕ → ℕ → Bytes → Except ZError Bytes
  | 0, _, done => .ok done
  | n + 1, i, done => do
      let r ← codedRec payload count i
      if ulen < done.length + r.ulen then .error .decodedLen
      else do
        let img ← decodeRecordInto lz4 head0 tail0 r
        decodeRecs lz4 payload count ulen head0 tail0 n (i + 1) (done ++ img)

/-- `decode_record_group`: the images end to end. -/
def decodeRecordGroup (lz4 : DictLz4) (payload : Bytes) (count ulen : ℕ) : Except ZError Bytes := do
  let (head0, tail0) ← codedFirst payload count
  let out ← decodeRecs lz4 payload count ulen head0 tail0 count 0 []
  if out.length ≠ ulen then .error .decodedLen else .ok out

/-! ## Searching and checking the coded bytes -/

/-- Where a key falls in a group. -/
structure GroupPos where
  index : ℕ
  off : ℕ
  found : Bool
  deriving Repr, DecidableEq

/-- `cmp_coded_key`: the key of a coded record, compared in the part the shared prefix holds and
then the suffix's. -/
def cmpCodedKey (head0 : Bytes) (r : CodedRec) (key : Bytes) : Ordering :=
  let a := slice head0 (min r.plen 4) r.plen
  let b := r.suffix.drop (4 - r.plen)
  let n := min a.length key.length
  match cmp (a.take n) (key.take n) with
  | .eq => if key.length < a.length then .gt else cmp b (key.drop n)
  | o => o

/-- The loop of `record_group_seek` over `n` records from `index` on. -/
def recordSeekFrom (payload : Bytes) (count : ℕ) (head0 key : Bytes) : ℕ → ℕ →
    Except ZError GroupPos
  | 0, index => .ok ⟨index, payload.length, false⟩
  | n + 1, index => do
      let r ← codedRec payload count index
      let off := half payload (2 * index)
      match cmpCodedKey head0 r key with
      | .lt => recordSeekFrom payload count head0 key n (index + 1)
      | .eq => .ok ⟨index, off, true⟩
      | .gt => .ok ⟨index, off, false⟩

/-- `record_group_seek`: where a key falls in a record-coded group. -/
def recordGroupSeek (payload : Bytes) (count : ℕ) (key : Bytes) : Except ZError GroupPos := do
  let (head0, _) ← codedFirst payload count
  recordSeekFrom payload count head0 key count 0

/-- `coded_key_into`: a coded record's key assembled, where its prefix is within the first head. -/
def codedKeyInto (head0 : Bytes) (r : CodedRec) : Option Bytes :=
  if head0.length < r.plen then none else some ((head0.take r.plen ++ r.suffix).drop 4)

/-- A fence's entry, as far as a group's check reads it. -/
structure FenceEntry where
  key : Bytes
  deriving Repr, DecidableEq

/-- The loop of `check_coded_group` over `n` records from `i` on, `prev` the key before and `ulen`
the images' lengths. -/
def checkCodedFrom (payload : Bytes) (count : ℕ) (head0 : Bytes) (first below : Option Bytes) :
    ℕ → ℕ → Bytes → ℕ → Except ZError ℕ
  | 0, _, _, ulen => .ok ulen
  | n + 1, i, prev, ulen => do
      let r ← codedRec payload count i
      match codedKeyInto head0 r with
      | none => .error (.walk "a coded record's prefix is longer than the first head")
      | some cur =>
          if i = 0 ∧ ∃ f ∈ first, f ≠ cur then .error (.walk "the first key is not the one named for it")
          else if 0 < i ∧ keyCmp prev cur ≠ .lt then .error (.walk "keys do not ascend")
          else if ∃ b ∈ below, keyCmp cur b ≠ .lt then
            .error (.walk "a key is not below the next group's first")
          else checkCodedFrom payload count head0 first below n (i + 1) cur (ulen + r.ulen)

/-- `check_coded_group`: that a record-coded group `j` is what its page's directory and its fence
entry say. -/
def checkCodedGroup (payload : Bytes) (v : PageView) (j : ℕ) (entry : FenceEntry) :
    Except ZError Unit :=
  match v.group j with
  | none => .error (.header "no such group in the page")
  | some g => do
      let first := if j = 0 then some entry.key else v.key j
      let (head0, _) ← codedFirst payload g.count
      let ulen ← checkCodedFrom payload g.count head0 first (v.key (j + 1)) g.count 0 [] 0
      if ulen ≠ g.ulen then .error .decodedLen else .ok ()

/-! ## Searching and checking the decoded bytes -/

/-- `record_len_compact`. -/
def recordLenCompact (klen run : ℕ) : ℕ := alignUp (4 + klen) REC_ALIGN + 4 + alignUp run REC_ALIGN

/-- `record_key_next`: the key of the record at `off` of a decoded group, and where the next begins.
-/
def recordKeyNext (buf : Bytes) (off : ℕ) : Option (Bytes × ℕ) := do
  if buf.length < off then none
  else do
    let klen ← readWord 2 buf off
    let n ← readWord 2 buf (off + 2)
    if n = COMPACT then do
      let key ← getRange buf (off + 4) (off + 4 + klen)
      let run ← readWord 2 buf (off + alignUp (4 + klen) REC_ALIGN)
      let next := off + recordLenCompact klen run
      if next ≤ buf.length then some (key, next) else none
    else do
      let (key, _, _, len) ← parseRecord 0 buf off
      if off + len ≤ buf.length then some (key, off + len) else none

/-- A record that does not parse. -/
def CUT : ZError := .walk "a record does not parse"

/-- The loop of `group_seek` over `n` records from `index` on. -/
def seekFrom (group key : Bytes) : ℕ → ℕ → ℕ → Except ZError GroupPos
  | 0, index, off => .ok ⟨index, off, false⟩
  | n + 1, index, off =>
      match recordKeyNext group off with
      | none => .error CUT
      | some (k, next) =>
          match keyCmp k key with
          | .lt => seekFrom group key n (index + 1) next
          | .eq => .ok ⟨index, off, true⟩
          | .gt => .ok ⟨index, off, false⟩

/-- `group_seek`: where a key falls in a decoded group. -/
def groupSeek (group : Bytes) (count : ℕ) (key : Bytes) : Except ZError GroupPos :=
  if key = [] then
    if count = 0 then .ok ⟨0, 0, false⟩
    else
      match recordKeyNext group 0 with
      | none => .error CUT
      | some (k, _) => .ok ⟨0, 0, decide (k = [])⟩
  else seekFrom group key count 0 0

/-- The loop of `walk_group` over `n` records from `i` on, the next at `off`; where the last ends.
-/
def walkFrom (group : Bytes) (first below : Option Bytes) : ℕ → ℕ → Option Bytes → ℕ →
    Except ZError ℕ
  | 0, _, _, off => .ok off
  | n + 1, i, prev, off =>
      match parseRecord 0 group off with
      | none => .error CUT
      | some (key, _, _, len) =>
          if i = 0 ∧ ∃ f ∈ first, f ≠ key then .error (.walk "the first key is not the one named for it")
          else if ∃ p ∈ prev, key ≤ p then .error (.walk "keys do not ascend")
          else if ∃ b ∈ below, keyCmp key b ≠ .lt then
            .error (.walk "a key is not below the next group's first")
          else walkFrom group first below n (i + 1) (some key) (off + len)

/-- `walk_group`: a decoded group walked end to end. -/
def walkGroup (group : Bytes) (count : ℕ) (first below : Option Bytes) : Except ZError Unit := do
  let off ← walkFrom group first below count 0 none 0
  if off ≠ group.length then .error (.walk "the group is not exactly count records") else .ok ()

/-- `check_group`: that a decoded group `j` is what its page's directory and its fence entry say. -/
def checkGroup (group : Bytes) (v : PageView) (j : ℕ) (entry : FenceEntry) : Except ZError Unit :=
  match v.group j with
  | none => .error (.header "no such group in the page")
  | some g =>
      let first := if j = 0 then some entry.key else v.key j
      walkGroup group g.count first (v.key (j + 1))

end Supdb

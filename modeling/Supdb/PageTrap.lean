import Supdb.FlatTrap
import Supdb.ZResident
import Supdb.Lz4Fast

/-!
# A form page's readers on a machine

`PageFormat` and `RecordCoding` say what a page's readers compute.  Here the same readers are runs:
each index, each slice taken without a check, each copy between buffers of given lengths and each
sum that is not checked can trap.

* **`View`** – a page's view as the machine holds it: where the keys lie is two arrays of sixteen
  half words.
* **`viewWithRun`** – `view_with`; `pageViewRun` and `viewTrustedRun` are the view with the
  directory's cross-checks and the one without.
* `View.groupRun`, `View.payloadRun`, `View.keyRun`, `View.groupOfKeyRun` – what a view hands out.
* **`decodeGroupWithRun`** – a group decoded: stored, record-coded, or an LZ4 block by either
  decoder.
* `decodeRecordRun`, `checkCodedGroupRun`, `checkGroupRun` – one record decoded, and a group
  checked.

The buffer a group is decoded into is given from outside, with whatever it held before.
-/

namespace Supdb

open StorageLib Run

namespace Zpages

/-! ## The view -/

/-- `from_le_bytes` of the `n` bytes from `pos` on. -/
def leAt (n : ℕ) (page : Bytes) (pos : ℕ) : Run ZError ℕ := do
  let stop ← addU pos n
  let x ← cut page pos stop
  ok (leNat x)

/-- `PageView`: the key of group `j` lies at `keyAt[j]..keyEnd[j]`. -/
structure View where
  header : PageHeader
  page : Bytes
  keysAt : ℕ
  keyAt : List ℕ
  keyEnd : List ℕ
  deriving Repr, DecidableEq

namespace View

variable (v : View)

/-- `entry_raw`. -/
def entryRawRun (j : ℕ) : Run ZError (ℕ × ℕ × ℕ × ℕ) := do
  let skip ← mulU j ZDIR_ENTRY
  let pos ← addU ZHDR skip
  let first ← leAt 2 v.page (pos + D_FIRST)
  let coff ← leAt 2 v.page (pos + D_COFF)
  let clen ← leAt 2 v.page (pos + D_CLEN)
  let ulen4 ← leAt 2 v.page (pos + D_ULEN4)
  ok (first, coff, clen, ulen4)

/-- Where group `j` ends: at the first of the next, or the page's count. -/
def nextFirstRun (j : ℕ) : Run ZError ℕ := do
  let j' ← addU j 1
  if j' < v.header.groups then do
    let e ← v.entryRawRun j'
    ok e.1
  else ok v.header.count

/-- `group`. -/
def groupRun (j : ℕ) : Run ZError (Option GroupEntry) :=
  if v.header.groups ≤ j then ok none
  else do
    let (first, coff, clen, ulen4) ← v.entryRawRun j
    let next ← v.nextFirstRun j
    if first ≤ next then
      ok (some ⟨first, next - first, coff, clen, ulen4 % D_CODED * 4, v.header.isStored j, decide (D_CODED ≤ ulen4)⟩)
    else ok none

/-- `payload`. -/
def payloadRun (j : ℕ) : Run ZError (Option Bytes) := do
  match ← v.groupRun j with
  | none => ok none
  | some g => do
      let stop ← addU g.coff g.clen
      ok (getRange v.page g.coff stop)

/-- `payload_and_rest`. -/
def payloadAndRestRun (j : ℕ) : Run ZError (Option (Bytes × ℕ)) := do
  match ← v.groupRun j with
  | none => ok none
  | some g =>
      match getRange v.page g.coff v.page.length with
      | none => ok none
      | some rest => if g.clen ≤ rest.length then ok (some (rest, g.clen)) else ok none

/-- `key`. -/
def keyRun (j : ℕ) : Run ZError (Option Bytes) :=
  if j = 0 ∨ v.header.groups ≤ j then ok none
  else do
    let lo ← index v.keyAt j
    let hi ← index v.keyEnd j
    ok (getRange v.page lo hi)

/-- The loop of `group_of_index` from group `j` on. -/
def groupOfIndexFrom (i j : ℕ) : Run ZError ℕ :=
  addU j 1 >>= fun _ =>
    if j + 1 < v.header.groups then
      v.entryRawRun (j + 1) >>= fun e => if e.1 ≤ i then groupOfIndexFrom i (j + 1) else ok j
    else ok j
termination_by v.header.groups - j

/-- `group_of_index`. -/
def groupOfIndexRun (i : ℕ) : Run ZError ℕ := v.groupOfIndexFrom i 0

/-- The loop of `group_of_key` from group `j` on. -/
def groupOfKeyFrom (key : Bytes) (j : ℕ) : Run ZError ℕ :=
  addU j 1 >>= fun _ =>
    if j + 1 < v.header.groups then
      v.keyRun (j + 1) >>= fun k =>
        if ∃ k' ∈ k, keyCmp k' key ≠ .gt then groupOfKeyFrom key (j + 1) else ok j
    else ok j
termination_by v.header.groups - j

/-- `group_of_key`. -/
def groupOfKeyRun (key : Bytes) : Run ZError ℕ := v.groupOfKeyFrom key 0

/-- `v.key_at[j] = lo; v.key_end[j] = hi`, each a half word. -/
def storeSpanRun (j lo hi : ℕ) : Run ZError View := do
  let keyAt ← store v.keyAt j (lo % 2 ^ 16)
  let keyEnd ← store v.keyEnd j (hi % 2 ^ 16)
  ok { v with keyAt := keyAt, keyEnd := keyEnd }

end View

/-- The header's words. -/
def headerRun (page : Bytes) : Run ZError PageHeader := do
  let firstRank ← leAt 4 page P_FIRST
  let count ← leAt 2 page P_COUNT
  let stored ← leAt 2 page P_STORED
  let ulen ← leAt 4 page P_ULEN
  let used ← leAt 2 page P_USED
  let groups ← leAt 1 page P_GROUPS
  ok ⟨firstRank, count, stored, ulen, used, groups⟩

/-- The comparison a checked view makes of the key at `lo..hi`, group `j`'s, with the one before. -/
def ascendsRun (v : View) (checked : Bool) (j lo hi : ℕ) : Run ZError Bool :=
  if checked ∧ 1 < j then do
    let prev ← v.keyRun (j - 1)
    let key ← cut v.page lo hi
    ok (decide (keyCmp (prev.getD []) key = .lt))
  else ok true

/-- The loop of `view_with` over the keys of `n` groups from `j` on, the first of them at `pos`. -/
def keySpansRun (stop : ℕ) (checked : Bool) : ℕ → ℕ → ℕ → View → Run ZError (View × ℕ)
  | 0, _, pos, v => ok (v, pos)
  | n + 1, j, pos, v => do
      let lo ← addU pos 2
      if stop < lo then err (.header "a group's key lies past the used bytes")
      else
        let klen ← leAt 2 v.page pos
        let hi ← addU lo klen
        if klen = 0 ∨ stop < hi then err (.header "a group's key is empty or lies past the used bytes")
        else
          let v ← v.storeSpanRun j lo hi
          let ascends ← ascendsRun v checked j lo hi
          if ascends then keySpansRun stop checked n (j + 1) hi v
          else err (.header "the groups' keys do not ascend")

/-- Whether group `j`'s first is not behind the one before. -/
def descendsRun (v : View) (j first : ℕ) : Run ZError Bool :=
  if j = 0 then ok false
  else do
    let e ← v.entryRawRun (j - 1)
    ok (decide (first ≤ e.1))

/-- The loop of `view_with` over the directory, the groups from `j` on. -/
def entriesRun (v : View) (stop : ℕ) : ℕ → ℕ → ℕ → ℕ → Run ZError ℕ
  | 0, _, _, ulen => ok ulen
  | n + 1, j, expectCoff, ulen => do
      let (first, coff, clen, ulen4) ← v.entryRawRun j
      let descends ← descendsRun v j first
      if descends then err (.header "the groups' firsts do not ascend")
      else if first ≠ (if j = 0 then 0 else first) ∨ v.header.count ≤ first then
        err (.header "a group's first is not in order below the count")
      else if coff ≠ expectCoff ∨ clen = 0 then
        err (.header "a group's payload is not where the one before ends")
      else
        let gulen := ulen4 % D_CODED * 4
        if gulen = 0 ∨ ZMAX_ULEN < gulen then
          err (.header "a group's ulen is not 4 to the most a group holds")
        else if v.header.isStored j ∧ clen ≠ gulen then err (.header "a stored group's clen is not its ulen")
        else if v.header.isStored j ∧ D_CODED ≤ ulen4 then err (.header "a stored group is not coded")
        else
          let pend ← addU coff clen
          if stop < pend then err (.header "a group's payload lies past the used bytes")
          else if j + 1 = v.header.groups ∧ pend ≠ stop then
            err (.header "the last payload does not end at the used bytes")
          else
            let expectCoff ← nextMultipleOf pend 4
            let ulen ← addU ulen gulen
            entriesRun v stop n (j + 1) expectCoff ulen

/-- `view_with`. -/
def viewWithRun (page : Bytes) (checked : Bool) : Run ZError View :=
  if page.length ≠ ZPAGE then err .length
  else do
    let h ← headerRun page
    ofExcept h.check
    let stop ← addU ZHDR h.used
    let dirLen ← mulU ZDIR_ENTRY h.groups
    let keysAt ← addU ZHDR dirLen
    let none' := List.replicate ZMAX_GROUPS 0
    let (v, pos) ← keySpansRun stop checked (h.groups - 1) 1 keysAt ⟨h, page, keysAt, none', none'⟩
    if checked then
      let expectCoff ← nextMultipleOf pos 4
      let ulen ← entriesRun v stop h.groups 0 expectCoff 0
      if ulen ≠ h.ulen then err (.header "ulen is not the groups' sum") else ok v
    else ok v

/-- `page_view`: the view with the directory's cross-checks. -/
def pageViewRun (page : Bytes) : Run ZError View := viewWithRun page true

/-- `view_trusted`: the view without them. -/
def viewTrustedRun (page : Bytes) : Run ZError View := viewWithRun page false

/-! ## Buffers -/

/-- A buffer a group decodes into: whole words of eight bytes. -/
structure GroupBuf where
  bytes : Bytes
  whole : 8 ∣ bytes.length

/-- The buffer grown, in whole pages, to hold `words` words. -/
def GroupBuf.grown (buf : GroupBuf) (words : ℕ) : Run ZError GroupBuf :=
  if buf.bytes.length / 8 < words then do
    let n ← nextMultipleOf words (ZPAGE / 8)
    ok ⟨List.replicate (8 * n) 0, by simp⟩
  else ok buf

/-- `bytes_for`: the first `n` bytes. -/
def GroupBuf.bytesForRun (buf : GroupBuf) (n : ℕ) : Run ZError Bytes := do
  let buf ← buf.grown (divCeil n 8)
  cut buf.bytes 0 n

/-- `bytes_with_slack`: the first `n` bytes and up to `slack` more. -/
def GroupBuf.bytesWithSlackRun (buf : GroupBuf) (n slack : ℕ) : Run ZError Bytes := do
  let buf ← buf.grown (divCeil n 8)
  let most ← addU n slack
  cut buf.bytes 0 (min buf.bytes.length most)

/-! ## The record coding -/

/-- The loop of `get_var`, its miss as the cut it is to every caller. -/
def getVarFromRun (b : Bytes) (pos v shift : ℕ) : Run ZError (ℕ × ℕ) :=
  okOr REC_CUT b[pos]? >>= fun x =>
    addU pos 1 >>= fun pos' =>
      let v := v ||| ((x.toNat &&& 0x7f) <<< shift)
      if x.toNat < 0x80 then ok (v, pos')
      else if 28 < shift + 7 then err REC_CUT
      else getVarFromRun b pos' v (shift + 7)
termination_by 35 - shift
decreasing_by omega

/-- `get_var`. -/
def getVarRun (b : Bytes) (pos : ℕ) : Run ZError (ℕ × ℕ) := getVarFromRun b pos 0 0

/-- The window of `n` bytes at `pos`, and where it ends. -/
def takeRun (b : Bytes) (pos n : ℕ) : Run ZError (Bytes × ℕ) := do
  let stop ← addU pos n
  let x ← okOr REC_CUT (getRange b pos stop)
  ok (x, stop)

/-- The fields of the record at `pos`. -/
def codedFieldsRun (payload : Bytes) (pos : ℕ) : Run ZError CodedRec := do
  let (plen, pos) ← getVarRun payload pos
  let (slen, pos) ← getVarRun payload pos
  let (suffix, pos) ← takeRun payload pos slen
  let (ulen, pos) ← getVarRun payload pos
  let (clen, pos) ← getVarRun payload pos
  let (tail, _) ← takeRun payload pos clen
  ok ⟨plen, suffix, ulen, tail⟩

/-- `tail_at`. -/
def tailAtRun (r : CodedRec) : Run ZError ℕ := do
  let head ← addU r.plen r.suffix.length
  nextMultipleOf head 4

/-- The checks of `coded_rec` of a record's fields against each other. -/
def checkFieldsRun (i : ℕ) (r : CodedRec) : Run ZError CodedRec := do
  let head ← addU r.plen r.suffix.length
  if head < 4 ∨ r.ulen = 0 ∨ ¬4 ∣ r.ulen ∨ ZMAX_ULEN < r.ulen then err REC_CUT
  else
    let tailAt ← tailAtRun r
    if r.ulen < tailAt then err REC_CUT
    else
      let room ← subU r.ulen tailAt
      if room < r.tail.length then err REC_CUT
      else if i = 0 ∧ (r.plen ≠ 0 ∨ r.tail.length ≠ room) then
        err (.walk "a coded group's first record is not stored whole")
      else ok r

/-- `coded_rec`. -/
def codedRecRun (payload : Bytes) (count i : ℕ) : Run ZError CodedRec :=
  if count ≤ i ∨ ZMAX_COUNT < count then err REC_CUT
  else do
    let table ← mulU 2 count
    if payload.length < table then err REC_CUT
    else
      let slot ← mulU 2 i
      let pos ← leAt 2 payload slot
      if pos < table then err REC_CUT
      else
        let r ← codedFieldsRun payload pos
        checkFieldsRun i r

/-- `coded_first`. -/
def codedFirstRun (payload : Bytes) (count : ℕ) : Run ZError (Bytes × Bytes) := do
  let r0 ← codedRecRun payload count 0
  ok (r0.suffix, r0.tail)

/-- `lz4_flex`: a block into at most `room` bytes, beside the two functions with a dictionary. -/
structure Lz4Flex extends DictLz4 where
  decompressInto (block : Bytes) (room : ℕ) : Option Bytes

/-- `decode_record_into`: the image written over `out`. -/
def decodeRecordIntoRun (lz4 : DictLz4) (head0 tail0 : Bytes) (r : CodedRec) (out : Bytes) :
    Run ZError Bytes := do
  assert (out.length = r.ulen)
  if head0.length < r.plen then err (.walk "a coded record's prefix is longer than the first head")
  else
    let head ← addU r.plen r.suffix.length
    let shared ← cut head0 0 r.plen
    let out ← copyTo out 0 r.plen shared
    let out ← copyTo out r.plen head r.suffix
    let tailAt ← tailAtRun r
    let pad ← cut out head tailAt
    let out ← copyTo out head tailAt (List.replicate pad.length 0)
    let want ← subU r.ulen tailAt
    if r.tail.length = want then copyTo out tailAt out.length r.tail
    else
      let room ← cut out tailAt out.length
      match lz4.decompressIntoWithDict r.tail room.length tail0 with
      | none => err .decode
      | some tail => if tail.length ≠ want then err .decodedLen else ok (writeAt out tailAt tail)

/-- `decode_record`. -/
def decodeRecordRun (lz4 : DictLz4) (payload : Bytes) (count i : ℕ) (buf : GroupBuf) :
    Run ZError Bytes := do
  let (head0, tail0) ← codedFirstRun payload count
  let r ← codedRecRun payload count i
  let out ← buf.bytesForRun r.ulen
  decodeRecordIntoRun lz4 head0 tail0 r out

/-- The loop of `decode_record_group` over `n` records from `i` on, the next image's place at `pos`.
-/
def decodeRecsRun (lz4 : DictLz4) (payload : Bytes) (count : ℕ) (head0 tail0 : Bytes) :
    ℕ → ℕ → ℕ → Bytes → Run ZError (ℕ × Bytes)
  | 0, _, pos, out => ok (pos, out)
  | n + 1, i, pos, out => do
      let r ← codedRecRun payload count i
      let stop ← okOr REC_CUT (Flatindex.checked (pos + r.ulen))
      let slot ← okOr .decodedLen (getRange out pos stop)
      let img ← decodeRecordIntoRun lz4 head0 tail0 r slot
      decodeRecsRun lz4 payload count head0 tail0 n (i + 1) stop (writeAt out pos img)

/-- `decode_record_group`. -/
def decodeRecordGroupRun (lz4 : DictLz4) (payload : Bytes) (count ulen : ℕ) (buf : GroupBuf) :
    Run ZError Bytes := do
  let (head0, tail0) ← codedFirstRun payload count
  let out ← buf.bytesForRun ulen
  let (pos, out) ← decodeRecsRun lz4 payload count head0 tail0 count 0 0 out
  if pos ≠ ulen then err .decodedLen else ok out

/-- `coded_key_into`. -/
def codedKeyIntoRun (head0 : Bytes) (r : CodedRec) : Run ZError (Option Bytes) :=
  if head0.length < r.plen then ok none
  else do
    let shared ← cut head0 0 r.plen
    let key ← cut (shared ++ r.suffix) 4 (shared ++ r.suffix).length
    ok (some key)

/-- The loop of `check_coded_group` over `n` records from `i` on. -/
def checkCodedFromRun (payload : Bytes) (count : ℕ) (head0 : Bytes) (first below : Option Bytes) :
    ℕ → ℕ → Bytes → ℕ → Run ZError ℕ
  | 0, _, _, ulen => ok ulen
  | n + 1, i, prev, ulen => do
      let r ← codedRecRun payload count i
      let ulen ← okOr REC_CUT (Flatindex.checked (ulen + r.ulen))
      match ← codedKeyIntoRun head0 r with
      | none => err (.walk "a coded record's prefix is longer than the first head")
      | some cur =>
          if i = 0 ∧ ∃ f ∈ first, f ≠ cur then err (.walk "the first key is not the one named for it")
          else if 0 < i ∧ keyCmp prev cur ≠ .lt then err (.walk "keys do not ascend")
          else if ∃ b ∈ below, keyCmp cur b ≠ .lt then
            err (.walk "a key is not below the next group's first")
          else checkCodedFromRun payload count head0 first below n (i + 1) cur ulen

/-- The key named for group `j`'s first record. -/
def firstKeyRun (v : View) (j : ℕ) (entry : FenceEntry) : Run ZError (Option Bytes) :=
  if j = 0 then ok (some entry.key) else v.keyRun j

/-- The key of a group's first record and the next group's, for a check of group `j`. -/
def keysAroundRun (v : View) (j : ℕ) (entry : FenceEntry) :
    Run ZError (Option Bytes × Option Bytes) := do
  let first ← firstKeyRun v j entry
  let j' ← addU j 1
  let below ← v.keyRun j'
  ok (first, below)

/-- `check_coded_group`. -/
def checkCodedGroupRun (payload : Bytes) (v : View) (j : ℕ) (entry : FenceEntry) :
    Run ZError Unit := do
  match ← v.groupRun j with
  | none => err (.header "no such group in the page")
  | some g => do
      let (first, below) ← keysAroundRun v j entry
      let (head0, _) ← codedFirstRun payload g.count
      let ulen ← checkCodedFromRun payload g.count head0 first below g.count 0 [] 0
      if ulen ≠ g.ulen then err .decodedLen else ok ()

/-! ## A decoded group -/

/-- The loop of `walk_group` over `n` records from `i` on, the group at `base` of the machine's
memory. -/
def walkFromRun (base : ℕ) (group : Bytes) (first below : Option Bytes) :
    ℕ → ℕ → Option Bytes → ℕ → Run ZError ℕ
  | 0, _, _, off => ok off
  | n + 1, i, prev, off => do
      let (key, _, _, len) ← orErr CUT (parseRecordRun base group off)
      if i = 0 ∧ ∃ f ∈ first, f ≠ key then err (.walk "the first key is not the one named for it")
      else if ∃ p ∈ prev, key ≤ p then err (.walk "keys do not ascend")
      else if ∃ b ∈ below, keyCmp key b ≠ .lt then err (.walk "a key is not below the next group's first")
      else do
        let off ← okOr (.walk "a record's length overflows") (Flatindex.checked (off + len))
        walkFromRun base group first below n (i + 1) (some key) off

/-- `walk_group`. -/
def walkGroupRun (base : ℕ) (group : Bytes) (count : ℕ) (first below : Option Bytes) :
    Run ZError Unit := do
  let off ← walkFromRun base group first below count 0 none 0
  if off ≠ group.length then err (.walk "the group is not exactly count records") else ok ()

/-- `check_group`. -/
def checkGroupRun (base : ℕ) (group : Bytes) (v : View) (j : ℕ) (entry : FenceEntry) :
    Run ZError Unit := do
  match ← v.groupRun j with
  | none => err (.header "no such group in the page")
  | some g => do
      let (first, below) ← keysAroundRun v j entry
      walkGroupRun base group g.count first below

/-! ## Decoding a group -/

/-- The slack a decode asks for behind a group, for the fast loop's wide copies. -/
def DECODE_SLACK : ℕ := 64

/-- The outcome of the engine's own decoder: bytes that are no block are the caller's error, a step
outside the buffers is a trap. -/
def ofDecoded {α : Type} : Decoded α → Run ZError α
  | .ok a => ok a
  | .err => err .decode
  | .fault => trap .bounds

/-- A stored group: the payload where it lies, at `base` and the offset `coff`, if that is aligned
for an extent, and else a copy of it. -/
def decodeStoredRun (base coff ulen : ℕ) (payload : Bytes) (buf : GroupBuf) : Run ZError Bytes :=
  if 4 ∣ base + coff then ok payload
  else do
    let out ← buf.bytesForRun ulen
    copyTo out 0 out.length payload

/-- A group decoded by the engine's own decoder. -/
def decodeOwnRun (v : View) (j ulen : ℕ) (buf : GroupBuf) : Run ZError Bytes := do
  let (rest, len) ← (do okOr .length (← v.payloadAndRestRun j))
  let out ← buf.bytesWithSlackRun ulen DECODE_SLACK
  let (n, out) ← ofDecoded (decompressIn rest len out)
  if ulen < n then err .decode
  else if n < ulen then err .decodedLen
  else cut out 0 ulen

/-- A group decoded by `lz4_flex`. -/
def decodeFlexRun (lz4 : Lz4Flex) (payload : Bytes) (ulen : ℕ) (buf : GroupBuf) :
    Run ZError Bytes := do
  let out ← buf.bytesForRun ulen
  let x ← okOr .decode (lz4.decompressInto payload out.length)
  if x.length ≠ ulen then err .decodedLen else ok (writeAt out 0 x)

/-- `decode_group_with`: group `j` of a view of the page at `base`. -/
def decodeGroupWithRun (lz4 : Lz4Flex) (base : ℕ) (v : View) (j : ℕ) (buf : GroupBuf) (own : Bool) :
    Run ZError Bytes := do
  let g ← (do okOr (.header "no such group in the page") (← v.groupRun j))
  let payload ← (do okOr .length (← v.payloadRun j))
  if g.ulen = 0 ∨ ZMAX_ULEN < g.ulen then err (.header "a group's ulen is not 4 to the most a group holds")
  else if g.stored then decodeStoredRun base g.coff g.ulen payload buf
  else if g.coded then decodeRecordGroupRun lz4.toDictLz4 payload g.count g.ulen buf
  else if own then decodeOwnRun v j g.ulen buf
  else decodeFlexRun lz4 payload g.ulen buf

end Zpages

end Supdb

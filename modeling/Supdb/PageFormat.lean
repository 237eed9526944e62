import Supdb.Crc
import Supdb.Lib.BigEndian

/-!
# The page of a form file

A page is 4,096 bytes: a checksum, a header, a directory of one to sixteen groups, the keys of every
group but the first, and the groups' payloads, each at a multiple of four, with zeros between and
behind.

* **`encodePage`** – the page of a list of groups, or why there is none.
* **`parsePage`** – a page's view, after every check that needs no fence and no decoder.
* `PageView.group`, `PageView.payload`, `PageView.key` – what a view hands out.
* `keyCmp` – keys compared by two big-endian words where both are long enough.

Words are numbers; a directory entry's decoded length is in fours, with the bit over it saying that
the group is record-coded.
-/

namespace Supdb

open StorageLib

/-! ## The layout -/

/-- The page. -/
def ZPAGE : ℕ := 4096
/-- The page header's length. -/
def ZHDR : ℕ := 24
/-- Payload bytes a page holds. -/
def ZCAP : ℕ := ZPAGE - ZHDR
/-- The most records in a page. -/
def ZMAX_COUNT : ℕ := 256
/-- The most bytes in a decoded group. -/
def ZMAX_ULEN : ℕ := 64 * 1024
/-- The most groups in a page. -/
def ZMAX_GROUPS : ℕ := 16
/-- A directory entry's length. -/
def ZDIR_ENTRY : ℕ := 8
/-- A page's tag, `"ZPG2"` as the bytes on disk. -/
def ZTAG : ℕ := leNat [0x5a, 0x50, 0x47, 0x32]
/-- The directory word's bit that says a group is record-coded. -/
def D_CODED : ℕ := 0x8000

def P_CRC : ℕ := 0
def P_TAG : ℕ := 4
def P_FIRST : ℕ := 8
def P_COUNT : ℕ := 12
def P_STORED : ℕ := 14
def P_ULEN : ℕ := 16
def P_USED : ℕ := 20
def P_GROUPS : ℕ := 22
def P_ZERO : ℕ := 23
def D_FIRST : ℕ := 0
def D_COFF : ℕ := 2
def D_CLEN : ℕ := 4
def D_ULEN4 : ℕ := 6

/-- What a check of the layout found. -/
inductive ZError where
  | length
  | magic
  | version
  | pageSize
  | trailerCrc
  | trailer (why : String)
  | residentCrc
  | resident (why : String)
  | tiling (why : String)
  | header (why : String)
  | pageCrc
  | tag
  | padding
  | decode
  | decodedLen
  | walk (why : String)
  deriving Repr, DecidableEq

/-- `key_cmp`: keys in byte order, by their first sixteen bytes as two words where both have them.
-/
def keyCmp (a b : Bytes) : Ordering :=
  if 16 ≤ a.length ∧ 16 ≤ b.length then
    match cmp (beNat (slice a 0 8)) (beNat (slice b 0 8)) with
    | .eq =>
        match cmp (beNat (slice a 8 16)) (beNat (slice b 8 16)) with
        | .eq => cmp (a.drop 16) (b.drop 16)
        | o => o
    | o => o
  else cmp a b

/-- A page's header, less the fields that are constants. -/
structure PageHeader where
  firstRank : ℕ
  count : ℕ
  stored : ℕ
  ulen : ℕ
  used : ℕ
  groups : ℕ
  deriving Repr, DecidableEq

/-- `PageHeader::check`: the values a page may carry. -/
def PageHeader.check (h : PageHeader) : Except ZError Unit :=
  if h.count = 0 ∨ ZMAX_COUNT < h.count then .error (.header "count is not 1 to the most a page holds")
  else if h.groups = 0 ∨ ZMAX_GROUPS < h.groups then .error (.header "groups is not 1 to the most a page holds")
  else if h.groups < 16 ∧ h.stored >>> h.groups ≠ 0 then .error (.header "a stored bit names no group")
  else if h.ulen = 0 ∨ ¬4 ∣ h.ulen then .error (.header "ulen is not a multiple of four")
  else if ZCAP < h.used ∨ h.used < ZDIR_ENTRY * h.groups then
    .error (.header "used is not the directory to the cap")
  else .ok ()

/-- `is_stored`: whether group `j` is stored verbatim. -/
def PageHeader.isStored (h : PageHeader) (j : ℕ) : Bool := decide (j < 16) && h.stored.testBit j

/-- `page_crc`: the checksum of everything behind the checksum, bound to the form file. -/
def pageCrc (page : Bytes) (bind32 : BitVec 32) : BitVec 32 := crc32 (page.drop P_TAG) ^^^ bind32

/-! ## Writing a page -/

/-- One group to write into a page. -/
structure PageGroup where
  count : ℕ
  payload : Bytes
  ulen : ℕ
  stored : Bool
  coded : Bool
  key : Bytes
  deriving Repr, DecidableEq

/-- Where payloads of these lengths would lie, from `pos` on, and where the last ends. -/
def layoutFrom : ℕ → ℕ → List ℕ → List ℕ × ℕ
  | _, last, [] => ([], last)
  | pos, _, clen :: rest =>
      let r := layoutFrom (alignUp (pos + clen) 4) (pos + clen) rest
      (pos :: r.1, r.2)

/-- `page_layout`: each group's payload offset, and the bytes the page would use behind the header.
-/
def pageLayout (groups : List (ℕ × ℕ)) : Option (List ℕ × ℕ) :=
  if groups = [] ∨ ZMAX_GROUPS < groups.length then none
  else
    let keys := ((groups.drop 1).map (fun g => 2 + g.2)).sum
    let pos := alignUp (ZHDR + ZDIR_ENTRY * groups.length + keys) 4
    if ZPAGE < pos then none
    else
      let r := layoutFrom pos pos (groups.map Prod.fst)
      some (r.1, r.2 - ZHDR)

/-- One group held to what a page may carry; `prev` is the key of the group before it, where there
is one. -/
def PageGroup.check (prev : Option Bytes) (g : PageGroup) : Except ZError Unit :=
  if g.count = 0 then .error (.header "a group of no records")
  else if g.ulen = 0 ∨ ¬4 ∣ g.ulen ∨ ZMAX_ULEN < g.ulen then
    .error (.header "a group's ulen is not a multiple of four in 4 to the most a group holds")
  else if g.payload = [] ∨ ZCAP < g.payload.length then
    .error (.header "a group's payload is not 1 to the most a page holds")
  else if g.stored ∧ g.payload.length ≠ g.ulen then .error (.header "a stored group's payload is not its ulen")
  else if g.stored ∧ g.coded then .error (.header "a stored group is not coded")
  else
    match prev with
    | none => .ok ()
    | some prev =>
        if g.key = [] ∨ 2 ^ 16 - 1 < g.key.length then .error (.header "a group's key is empty or over a u16")
        else if keyCmp prev g.key ≠ .lt then .error (.header "the groups' keys do not ascend")
        else .ok ()

/-- The loop of `encode_page` over its groups: each checked, their records, decoded bytes and stored
bits summed. -/
def sumGroups : List PageGroup → ℕ → Option Bytes → ℕ × ℕ × ℕ → Except ZError (ℕ × ℕ × ℕ)
  | [], _, _, s => .ok s
  | g :: gs, j, prev, (count, ulen, stored) => do
      g.check prev
      sumGroups gs (j + 1) (some g.key) (count + g.count, ulen + g.ulen, stored ||| (g.stored.toNat <<< j))

/-- The directory word of a group's decoded length. -/
def PageGroup.ulen4 (g : PageGroup) : ℕ := g.ulen / 4 + if g.coded then D_CODED else 0

/-- The loop of `encode_page` that writes the groups: group `j` with its payload at `coff`, its
first record's index `first`, and its key, where it has one there, at `keysAt`. -/
def writeGroups : List (PageGroup × ℕ) → ℕ → ℕ → ℕ → Bytes → Bytes
  | [], _, _, _, page => page
  | (g, coff) :: gs, j, first, keysAt, page =>
      let pos := ZHDR + j * ZDIR_ENTRY
      let page := writeAt page (pos + D_FIRST) (leBytes 2 first)
      let page := writeAt page (pos + D_COFF) (leBytes 2 coff)
      let page := writeAt page (pos + D_CLEN) (leBytes 2 g.payload.length)
      let page := writeAt page (pos + D_ULEN4) (leBytes 2 g.ulen4)
      if j = 0 then
        writeGroups gs (j + 1) (first + g.count) keysAt (writeAt page coff g.payload)
      else
        let page := writeAt page keysAt (leBytes 2 g.key.length)
        let page := writeAt page (keysAt + 2) g.key
        writeGroups gs (j + 1) (first + g.count) (keysAt + 2 + g.key.length) (writeAt page coff g.payload)

/-- The header's fields written into a page of zeros. -/
def writeHeader (h : PageHeader) : Bytes :=
  let page : Bytes := List.replicate ZPAGE 0
  let page := writeAt page P_TAG (leBytes 4 ZTAG)
  let page := writeAt page P_FIRST (leBytes 4 h.firstRank)
  let page := writeAt page P_COUNT (leBytes 2 h.count)
  let page := writeAt page P_STORED (leBytes 2 h.stored)
  let page := writeAt page P_ULEN (leBytes 4 h.ulen)
  let page := writeAt page P_USED (leBytes 2 h.used)
  let page := writeAt page P_GROUPS (leBytes 1 h.groups)
  writeAt page P_ZERO [0]

/-- `encode_page`: the header, the directory, the keys of the groups behind the first, the payloads,
zeros, and the checksum last. -/
def encodePage (firstRank : BitVec 32) (groups : List PageGroup) (bind32 : BitVec 32) :
    Except ZError (Bytes × PageHeader) := do
  if groups = [] ∨ ZMAX_GROUPS < groups.length then .error (.header "groups is not 1 to the most a page holds")
  else do
    let (count, ulen, stored) ← sumGroups groups 0 none (0, 0, 0)
    if ZMAX_COUNT < count then .error (.header "count is not 1 to the most a page holds")
    else
      let shape := groups.zipIdx.map (fun g => (g.1.payload.length, if g.2 = 0 then 0 else g.1.key.length))
      match pageLayout shape with
      | none => .error (.header "the groups do not fit the page")
      | some (coffs, used) =>
          if ZCAP < used then .error (.header "the groups do not fit the page")
          else do
            let h : PageHeader := ⟨firstRank.toNat, count, stored, ulen, used, groups.length⟩
            h.check
            let page := writeGroups (groups.zip coffs) 0 0 (ZHDR + ZDIR_ENTRY * groups.length) (writeHeader h)
            .ok (writeAt page P_CRC (leBytes 4 (pageCrc page bind32).toNat), h)

/-! ## Reading a page -/

/-- A page parsed: its header, and where the key of each group behind the first lies. -/
structure PageView where
  header : PageHeader
  page : Bytes
  keysAt : ℕ
  keySpans : List (ℕ × ℕ)
  deriving Repr, DecidableEq

/-- A half word of a page. -/
def half (page : Bytes) (p : ℕ) : ℕ := leNat (slice page p (p + 2))

/-- One group of a page as the directory names it. -/
structure GroupEntry where
  first : ℕ
  count : ℕ
  coff : ℕ
  clen : ℕ
  ulen : ℕ
  stored : Bool
  coded : Bool
  deriving Repr, DecidableEq

namespace PageView

variable (v : PageView)

/-- `entry_raw`. -/
def entryRaw (j : ℕ) : ℕ × ℕ × ℕ × ℕ :=
  let pos := ZHDR + j * ZDIR_ENTRY
  (half v.page (pos + D_FIRST), half v.page (pos + D_COFF), half v.page (pos + D_CLEN),
    half v.page (pos + D_ULEN4))

/-- `group`: group `j` as the directory names it. -/
def group (j : ℕ) : Option GroupEntry :=
  if v.header.groups ≤ j then none
  else
    let (first, coff, clen, ulen4) := v.entryRaw j
    let next := if j + 1 < v.header.groups then (v.entryRaw (j + 1)).1 else v.header.count
    if first ≤ next then
      some ⟨first, next - first, coff, clen, ulen4 % D_CODED * 4, v.header.isStored j, decide (D_CODED ≤ ulen4)⟩
    else none

/-- `payload`: group `j`'s payload, where it lies in the page. -/
def payload (j : ℕ) : Option Bytes := do
  let g ← v.group j
  getRange v.page g.coff (g.coff + g.clen)

/-- `key`: the key of group `j`'s first record, of every group but the first. -/
def key (j : ℕ) : Option Bytes :=
  if j = 0 ∨ v.header.groups ≤ j then none
  else do
    let s ← v.keySpans[j - 1]?
    getRange v.page s.1 s.2

end PageView

/-- The loop of `view_with` over the keys of `n` groups, the first of them at `pos`: where each
lies, and where they end.  The key before is compared where the view is checked. -/
def keysFrom (page : Bytes) (stop : ℕ) (checked : Bool) :
    ℕ → ℕ → Option Bytes → Except ZError (List (ℕ × ℕ) × ℕ)
  | 0, pos, _ => .ok ([], pos)
  | n + 1, pos, prev =>
      if stop < pos + 2 then .error (.header "a group's key lies past the used bytes")
      else
        let klen := half page pos
        if klen = 0 ∨ stop < pos + 2 + klen then
          .error (.header "a group's key is empty or lies past the used bytes")
        else
          let key := slice page (pos + 2) (pos + 2 + klen)
          if checked ∧ ∃ prev' ∈ prev, keyCmp prev' key ≠ .lt then .error (.header "the groups' keys do not ascend")
          else do
            let (spans, pos') ← keysFrom page stop checked n (pos + 2 + klen) (some key)
            .ok ((pos + 2, pos + 2 + klen) :: spans, pos')

/-- The loop of `view_with` over the directory, the groups from `j` on: each payload straight behind
the one before, the firsts ascending, the lengths in range; the sum of the decoded lengths. -/
def entriesFrom (v : PageView) (stop : ℕ) : ℕ → ℕ → ℕ → ℕ → Except ZError ℕ
  | 0, _, _, ulen => .ok ulen
  | n + 1, j, expectCoff, ulen =>
      let (first, coff, clen, ulen4) := v.entryRaw j
      if j ≠ 0 ∧ first ≤ (v.entryRaw (j - 1)).1 then .error (.header "the groups' firsts do not ascend")
      else if first ≠ (if j = 0 then 0 else first) ∨ v.header.count ≤ first then
        .error (.header "a group's first is not in order below the count")
      else if coff ≠ expectCoff ∨ clen = 0 then
        .error (.header "a group's payload is not where the one before ends")
      else
        let gulen := ulen4 % D_CODED * 4
        if gulen = 0 ∨ ZMAX_ULEN < gulen then
          .error (.header "a group's ulen is not 4 to the most a group holds")
        else if v.header.isStored j ∧ clen ≠ gulen then .error (.header "a stored group's clen is not its ulen")
        else if v.header.isStored j ∧ D_CODED ≤ ulen4 then .error (.header "a stored group is not coded")
        else
          let pend := coff + clen
          if stop < pend then .error (.header "a group's payload lies past the used bytes")
          else if j + 1 = v.header.groups ∧ pend ≠ stop then
            .error (.header "the last payload does not end at the used bytes")
          else entriesFrom v stop n (j + 1) (alignUp pend 4) (ulen + gulen)

/-- `view_with`: the header's values and where the keys lie, with or without the directory's
cross-checks. -/
def viewWith (page : Bytes) (checked : Bool) : Except ZError PageView :=
  if page.length ≠ ZPAGE then .error .length
  else do
    let h : PageHeader :=
      ⟨leNat (slice page P_FIRST (P_FIRST + 4)), half page P_COUNT, half page P_STORED,
        leNat (slice page P_ULEN (P_ULEN + 4)), half page P_USED, leNat (slice page P_GROUPS (P_GROUPS + 1))⟩
    h.check
    let stop := ZHDR + h.used
    let keysAt := ZHDR + ZDIR_ENTRY * h.groups
    let (spans, pos) ← keysFrom page stop checked (h.groups - 1) keysAt none
    let v : PageView := ⟨h, page, keysAt, spans⟩
    if checked then do
      let ulen ← entriesFrom v stop h.groups 0 (alignUp pos 4) 0
      if ulen ≠ h.ulen then .error (.header "ulen is not the groups' sum") else .ok v
    else .ok v

/-- The loop of `parse_page` over the gaps in front of the payloads of `n` groups from `j` on. -/
def gapsFrom (v : PageView) : ℕ → ℕ → ℕ → Except ZError Unit
  | 0, _, _ => .ok ()
  | n + 1, j, gapFrom =>
      match v.group j with
      | none => .error .length
      | some g =>
          if (slice v.page gapFrom g.coff).any (· ≠ 0) then .error .padding
          else gapsFrom v n (j + 1) (g.coff + g.clen)

/-- `parse_page`: a page's view, after the checksum, the tag, the zero byte, the header's and the
directory's values, and the zeros. -/
def parsePage (page : Bytes) (bind32 : BitVec 32) : Except ZError PageView :=
  if page.length ≠ ZPAGE then .error .length
  else if leNat (slice page P_CRC (P_CRC + 4)) ≠ (pageCrc page bind32).toNat then .error .pageCrc
  else if leNat (slice page P_TAG (P_TAG + 4)) ≠ ZTAG then .error .tag
  else if page[P_ZERO]? ≠ some 0 then .error (.header "a reserved byte is not zero")
  else do
    let v ← viewWith page true
    if (page.drop (ZHDR + v.header.used)).any (· ≠ 0) then .error .padding
    else do
      let gapFrom := (v.keySpans.getLast?.map Prod.snd).getD v.keysAt
      gapsFrom v v.header.groups 0 gapFrom
      .ok v

end Supdb

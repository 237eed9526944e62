import Supdb.ByteArena
import Supdb.MemTable

/-!
# The hashed table in memory

A hashed table keeps an **entry** a key, in the order the keys came, and of each key a **chain** of
chunks, newest first: the values appended to it and the tombstones between them.  An open-addressed
**index** finds the entry of a key by its hash, and is rebuilt at twice the size when half full.  A
commit marks how far the entries and the chunks go; a reader of that mark skips what lies behind it.

* `HashedTable.write`, `HashedTable.put`, `HashedTable.delete` – the operations, each `none` where
  the source asserts.
* `HashedTable.probe`, `HashedTable.liveOffsInto`, `HashedTable.hasTomb` – what a read does.
-/

namespace Supdb

open StorageLib

/-- The length word of a tombstone. -/
def TOMB_LEN : ℕ := 2 ^ 32 - 1

/-- A chunk's header: the offset of the chunk before it, and the length of its value. -/
def CHUNK_HDR : ℕ := 12

/-- The offset that ends a chain. -/
def NO_CHUNK : ℕ := 2 ^ 64 - 1

/-- No watermark. -/
def SEE_ALL : ℕ := 2 ^ 64 - 1

/-- Entries a slab addresses. -/
def SLAB_MAX : ℕ := 2 ^ 28

/-- An entry: the high half of its key's hash, where the key lies, the offset of its newest chunk
plus one, and how many values it has. -/
structure MemEntry where
  hash : ℕ
  keyOff : ℕ
  klen : ℕ
  head : ℕ
  count : ℕ
  deriving DecidableEq, Repr

/-- `chain_head`. -/
def MemEntry.chainHead (e : MemEntry) : ℕ := if e.head = 0 then NO_CHUNK else e.head - 1

/-- What a commit marks: the entries there are, and the offset the next chunk goes to at the
earliest. -/
structure Mark where
  len : ℕ
  wm : ℕ
  deriving DecidableEq, Repr

/-- A hashed table. -/
structure HashedTable where
  entries : List MemEntry
  /-- The index's slots. -/
  slots : List ℕ
  keys : ByteArena
  vals : ByteArena
  tombs : ℕ
  mark : Mark

/-- `slot_of`: the slot of a hash, by its high half. -/
def homeOf (hash mask : ℕ) : ℕ := hash / 2 ^ 32 &&& mask

/-- `Index::word`: the hash's high half over the entry's number plus one. -/
def indexWord (hash id : ℕ) : ℕ := (hash / 2 ^ 32) <<< 32 ||| (id + 1)

namespace HashedTable

/-- `MemTable::new`. -/
def new : HashedTable := ⟨[], List.replicate 1024 0, .new, .new, 0, ⟨0, 0⟩⟩

def len (t : HashedTable) : ℕ := t.entries.length

/-- `Index::mask`. -/
def mask (t : HashedTable) : ℕ := t.slots.length - 1

/-- `key_of`. -/
def keyOf (t : HashedTable) (e : MemEntry) : Option Bytes := t.keys.slice e.keyOff e.klen

/-- What a slot says of a key: nothing where its tag is another, the entry's number where the entry
holds the key; an entry whose key does not read is the panic of that read. -/
def slotHolds (t : HashedTable) (hash : ℕ) (key : Bytes) (s : ℕ) : Option (Option ℕ) :=
  if s / 2 ^ 32 = hash / 2 ^ 32 then
    let id := s % 2 ^ 32 - 1
    match t.entries[id]?.bind t.keyOf with
    | none => some none
    | some k => if k = key then some (some id) else none
  else none

/-- `probe`: the entry that holds a key, if the table has one; the outer `none` is a panic. -/
def probe (t : HashedTable) (hash : ℕ) (key : Bytes) : Option (Option ℕ) :=
  match StorageLib.probe 0 (t.slotHolds hash key)
      (fun s => (s + 1) &&& t.mask) t.slots t.slots.length (homeOf hash t.mask) with
  | none => some none
  | some none => none
  | some (some id) => some (some id)

/-- `get_with`: the entry that holds a key among the first `upto`. -/
def getWith (t : HashedTable) (hash : ℕ) (key : Bytes) (upto : ℕ) : Option (Option MemEntry) :=
  (t.probe hash key).map (fun found => (found.filter (· < upto)).bind (fun id => t.entries[id]?))

/-! ## Chunks -/

/-- `push_chunk`. -/
def pushChunk (t : HashedTable) (prev : ℕ) (value : Bytes) : Option (HashedTable × ℕ) := do
  let (vals, off) ← t.vals.reserve (CHUNK_HDR + value.length)
  let vals ← vals.write off (leBytes 8 prev)
  let vals ← vals.write (off + 8) (leBytes 4 (value.length % 2 ^ 32))
  let vals ← vals.write (off + CHUNK_HDR) value
  some ({ t with vals := vals }, off)

/-- `push_tomb`. -/
def pushTomb (t : HashedTable) (prev : ℕ) : Option (HashedTable × ℕ) := do
  let (vals, off) ← t.vals.reserve CHUNK_HDR
  let vals ← vals.write off (leBytes 8 prev)
  let vals ← vals.write (off + 8) (leBytes 4 TOMB_LEN)
  some ({ t with vals := vals, tombs := t.tombs + 1 }, off)

/-- `chunk_prev`. -/
def chunkPrev (t : HashedTable) (off : ℕ) : Option ℕ := (t.vals.slice off 8).map leNat

/-- `chunk_len`. -/
def chunkLen (t : HashedTable) (off : ℕ) : Option ℕ := (t.vals.slice (off + 8) 4).map leNat

/-- `value_at`. -/
def valueAt (t : HashedTable) (off : ℕ) : Option Bytes := do
  let len ← t.chunkLen off
  t.vals.slice (off + CHUNK_HDR) len

/-! ## The index -/

/-- A word into the first free slot at or behind its hash's. -/
def placeWord (slots : List ℕ) (hash id : ℕ) : Option (List ℕ) :=
  place 0 (indexWord hash id) (fun s => (s + 1) &&& (slots.length - 1)) slots.length slots
    (homeOf hash (slots.length - 1))

/-- `rebuild_index`: a table twice the size, every entry in it by what it keeps of its hash. -/
def rebuildIndex (t : HashedTable) : Option (List ℕ) :=
  (t.entries.zipIdx).foldlM (fun slots e => placeWord slots (e.1.hash * 2 ^ 32) e.2)
    (List.replicate (t.slots.length * 2) 0)

/-- `index_insert`. -/
def indexInsert (t : HashedTable) (hash id : ℕ) : Option HashedTable := do
  let slots ← if t.slots.length < t.len * 2 then t.rebuildIndex else some t.slots
  let slots ← placeWord slots hash id
  some { t with slots := slots }

/-! ## Writes -/

/-- The key copied. -/
def copyKey (t : HashedTable) (key : Bytes) : Option (HashedTable × ℕ) := do
  let (keys, off) ← t.keys.reserve key.length
  let keys ← keys.write off key
  if off < 2 ^ 32 then some ({ t with keys := keys }, off) else none

/-- `push_chunk` of a value, or `push_tomb`. -/
def push (t : HashedTable) (prev : ℕ) : Option Bytes → Option (HashedTable × ℕ)
  | some value => t.pushChunk prev value
  | none => t.pushTomb prev

/-- `new_entry`: its first chunk, its key and the entry, published by the count; and its number. -/
def newEntry (t : HashedTable) (hash : ℕ) (key : Bytes) (value : Option Bytes) :
    Option (HashedTable × ℕ) := do
  let (t, off) ← t.push NO_CHUNK value
  let (t, keyOff) ← t.copyKey key
  if t.len < SLAB_MAX then
    let e : MemEntry :=
      ⟨hash / 2 ^ 32, keyOff, key.length % 2 ^ 16, off + 1, if value.isSome then 1 else 0⟩
    some ({ t with entries := t.entries ++ [e] }, t.len)
  else none

/-- An entry's head and count stored. -/
def setHead (t : HashedTable) (id off : ℕ) (count : ℕ → ℕ) : HashedTable :=
  { t with entries := t.entries.modify id (fun e => { e with head := off + 1, count := count e.count }) }

/-- The entry's chain head, as its writer reads it. -/
def headAt (t : HashedTable) (id : ℕ) : Option ℕ := t.entries[id]?.map MemEntry.chainHead

/-- `write`: a value, or a tombstone, at the head of a key's chain. -/
def write (t : HashedTable) (hash : ℕ) (key : Bytes) (value : Option Bytes) :
    Option HashedTable := do
  match ← t.probe hash key with
  | some id =>
      let prev ← t.headAt id
      let (t, off) ← t.push prev value
      some (t.setHead id off (fun n => if value.isSome then (n + 1) % 2 ^ 32 else 0))
  | none =>
      let (t, id) ← t.newEntry hash key value
      t.indexInsert hash id

/-- `append`. -/
def append (t : HashedTable) (hash : ℕ) (key value : Bytes) : Option HashedTable :=
  t.write hash key (some value)

/-- `delete`. -/
def delete (t : HashedTable) (hash : ℕ) (key : Bytes) : Option HashedTable := t.write hash key none

/-- `put`: a tombstone and a value, one probe for both. -/
def put (t : HashedTable) (hash : ℕ) (key value : Bytes) : Option HashedTable := do
  match ← t.probe hash key with
  | some id =>
      let prev ← t.headAt id
      let (t, tomb) ← t.pushTomb prev
      let (t, off) ← t.pushChunk tomb value
      some (t.setHead id off (fun _ => 1))
  | none =>
      let (t, id) ← t.newEntry hash key none
      let prev ← t.headAt id
      let (t, off) ← t.pushChunk prev value
      (t.setHead id off (fun _ => 1)).indexInsert hash id

/-- `commit`. -/
def commit (t : HashedTable) : HashedTable := { t with mark := ⟨t.len, t.vals.tail⟩ }

/-! ## Reads -/

/-- The walk of `live_offs_into`, from a chunk on: what it pushes, newest first, and whether a
tombstone cut it.  A chunk at or past the watermark is skipped. -/
def liveWalk (t : HashedTable) (wm : ℕ) : ℕ → ℕ → List ℕ → Option (List ℕ × Bool)
  | 0, _, _ => none
  | fuel + 1, at0, out =>
      if at0 = NO_CHUNK then some (out, false)
      else if wm ≤ at0 then do
        let prev ← t.chunkPrev at0
        t.liveWalk wm fuel prev out
      else do
        let len ← t.chunkLen at0
        if len = TOMB_LEN then some (out, true)
        else
          let prev ← t.chunkPrev at0
          t.liveWalk wm fuel prev (out ++ [at0])

/-- `live_offs_into`, `live_chain`: the offsets of an entry's live values under a watermark, oldest
first, and whether a tombstone ends the chain.  The chain has no more links than the arena has
bytes. -/
def liveOffsInto (t : HashedTable) (e : MemEntry) (wm : ℕ) : Option (List ℕ × Bool) :=
  (t.liveWalk wm (t.vals.tail + 1) e.chainHead []).map (fun r => (r.1.reverse, r.2))

/-- The walk of `has_tomb`. -/
def tombWalk (t : HashedTable) (wm : ℕ) : ℕ → ℕ → Option Bool
  | 0, _ => none
  | fuel + 1, at0 =>
      if at0 = NO_CHUNK then some false
      else do
        let tomb ← if at0 < wm then (t.chunkLen at0).map (fun len => decide (len = TOMB_LEN)) else some false
        if tomb then some true
        else
          let prev ← t.chunkPrev at0
          t.tombWalk wm fuel prev

/-- `has_tomb`. -/
def hasTomb (t : HashedTable) (e : MemEntry) (wm : ℕ) : Option Bool :=
  t.tombWalk wm (t.vals.tail + 1) e.chainHead

end HashedTable

end Supdb

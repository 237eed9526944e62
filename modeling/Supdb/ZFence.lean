import Supdb.RecordExact
import Supdb.Lib.BreadthFirst

/-!
# The form file's fence

A form file's fence has one entry for each page-sized run of records: the rank and the key of the
first of them and the page that holds them.  A read searches it in memory, before it faults a page.

* `ZFence.push` – an entry added at the end.
* `ZFence.index` – a search tree over the entries' *words*, the eight bytes of each key behind the
  bytes every non-empty key shares.
* `ZFence.entryOf`, `ZFence.entryOfSearch`, `ZFence.entryOfFrom` – the entry a key's records fall
  among: by the tree, by halving over the keys, and by galloping from an entry found before.

Where the source indexes a vector or expects an entry to have its key, the model answers `none`: a
function here that is `some` does not panic.
-/

namespace Supdb

open StorageLib

/-- `fence_word`: the eight bytes of `key` behind the shared ones, zeros where it is short, as a
big-endian word. -/
def fenceWord (key : Bytes) (shared : ℕ) : ℕ := beNat (padded 8 (key.drop shared))

/-- The fence's entries, side by side, and the search tree over them.  The tree's words lie eight to
a line, node `i`'s at `probe[i]` of the lines laid end to end. -/
structure ZFence where
  firstRank : List UInt32
  page : List UInt32
  /-- Entry `i`'s key is `keyOff[i]..keyOff[i + 1]` of `keys`. -/
  keyOff : List UInt32
  keys : Bytes
  probe : List ℕ
  probePos : List ℕ
  shared : Bytes
  deriving DecidableEq, Repr

namespace ZFence

/-- A fence of no entries. -/
def new : ZFence := ⟨[], [], [0], [], [], [], []⟩

/-- How many entries. -/
def len (f : ZFence) : ℕ := f.firstRank.length

/-- The entries without a tree over them. -/
def bare (f : ZFence) : ZFence := { f with probe := [], probePos := [], shared := [] }

/-- `push`. -/
def push (f : ZFence) (firstRank page : UInt32) (key : Bytes) : Except ZError ZFence :=
  let stop := f.keys.length + key.length
  if stop < 2 ^ 32 then
    .ok { firstRank := f.firstRank ++ [firstRank], page := f.page ++ [page],
          keyOff := f.keyOff ++ [UInt32.ofNat stop], keys := f.keys ++ key,
          probe := [], probePos := [], shared := [] }
  else .error (.resident "the key blob passes four gibibytes")

/-- `key`: entry `i`'s key. -/
def key (f : ZFence) (i : ℕ) : Option Bytes := do
  let a ← f.keyOff[i]?
  let b ← f.keyOff[i + 1]?
  getRange f.keys a.toNat b.toNat

/-! ## The tree -/

/-- A word of the tree written, and the entry it is the word of: the body of `fill`. -/
def fillNode (f : ZFence) (shared node : ℕ) (st : List ℕ × List ℕ × ℕ) :
    Option (List ℕ × List ℕ × ℕ) := do
  let k ← f.key st.2.2
  if node < st.1.length ∧ node < st.2.1.length then
    some (st.1.set node (fenceWord k shared), st.2.1.set node (st.2.2 % 2 ^ 32), st.2.2 + 1)
  else none

/-- `fill`: the nodes below `node` filled in key order, from the entry counted so far. -/
def fill (f : ZFence) (shared n node : ℕ) (st : List ℕ × List ℕ × ℕ) :
    Option (List ℕ × List ℕ × ℕ) :=
  if _h : 0 < node ∧ node ≤ n then
    (fill f shared n (2 * node) st).bind fun st =>
    (fillNode f shared node st).bind fun st => fill f shared n (2 * node + 1) st
  else some st
termination_by n + 1 - node
decreasing_by all_goals omega

/-- The bytes the first non-empty key and the last share. -/
def sharedBytes (f : ZFence) : Option Bytes :=
  match (List.range f.len).find? (fun i => (f.key i).any (· ≠ [])) with
  | some i => do
      let a ← f.key i
      let b ← f.key (f.len - 1)
      some (a.take (sharedLen a b))
  | none => some []

/-- `index`. -/
def index (f : ZFence) : Option ZFence :=
  if f.len = 0 then some f.bare
  else do
    let shared ← f.sharedBytes
    let probe := List.replicate (divCeil (f.len + 1) 8 * 8) 0
    let (probe, pos, _) ← f.fill shared.length f.len 1 (probe, List.replicate (f.len + 1) 0, 0)
    some { f with probe := probe, probePos := pos, shared := shared }

/-- The loop of `above_by_word`: down the tree, right where the node's word is at or below `w`. -/
def aboveLoop (f : ZFence) (w i : ℕ) : Option ℕ :=
  if _h : 0 < i ∧ i ≤ f.len then
    (f.probe[i]?).bind fun node => aboveLoop f w (2 * i + if node ≤ w then 1 else 0)
  else some i
termination_by f.len + 1 - i
decreasing_by split <;> omega

/-- `above_by_word`: the first entry whose word is above `w`. -/
def aboveByWord (f : ZFence) (w : ℕ) : Option ℕ := do
  let i ← f.aboveLoop w 1
  let j := i >>> (trailingOnes i + 1)
  if j = 0 then some f.len else f.probePos[j]?

/-! ## The searches -/

/-- `below_every_nonempty`. -/
def belowEveryNonempty (f : ZFence) : Option ℕ := if f.key 0 = some [] then some 0 else none

/-- A key compared with a non-empty one, an empty one never read. -/
def atOrBelow (k key : Bytes) : Bool := k = [] ∨ keyCmp k key ≠ .gt

/-- The loop of `entry_of_search`. -/
def searchLoop (f : ZFence) (key : Bytes) (lo hi : ℕ) : Option ℕ :=
  if lo < hi then
    (f.key (lo + (hi - lo) / 2)).bind fun k =>
      let below : Bool := if k = [] then true else if key = [] then false else keyCmp k key ≠ .gt
      if below then searchLoop f key (lo + (hi - lo) / 2 + 1) hi
      else searchLoop f key lo (lo + (hi - lo) / 2)
  else some lo
termination_by hi - lo
decreasing_by all_goals omega

/-- `entry_of_search`. -/
def entryOfSearch (f : ZFence) (key : Bytes) : Option (Option ℕ) := do
  let lo ← f.searchLoop key 0 f.len
  some (if lo = 0 then none else some (lo - 1))

/-- The walk of `entry_of` down from the first entry above by word. -/
def downFrom (f : ZFence) (key : Bytes) (w : ℕ) : ℕ → Option (Option ℕ)
  | 0 => some none
  | e + 1 => do
      let k ← f.key e
      if k = [] ∨ fenceWord k f.shared.length < w ∨ keyCmp k key ≠ .gt then some (some e)
      else downFrom f key w e

/-- `entry_of`. -/
def entryOf (f : ZFence) (key : Bytes) : Option (Option ℕ) :=
  if f.probe = [] then f.entryOfSearch key
  else if key = [] then some f.belowEveryNonempty
  else
    let head := key.take (min key.length f.shared.length)
    match cmp head (f.shared.take head.length) with
    | .lt => some f.belowEveryNonempty
    | .gt => if f.len = 0 then none else some (some (f.len - 1))
    | .eq =>
        if key.length < f.shared.length then some f.belowEveryNonempty
        else do
          let w := fenceWord key f.shared.length
          let e ← f.aboveByWord w
          f.downFrom key w e

/-- The gallop of `entry_of_from`. -/
def gallop (f : ZFence) (key : Bytes) (lo hi step : ℕ) : Option (ℕ × ℕ) :=
  if _h : lo < hi ∧ hi < f.len then
    (f.key hi).bind fun k =>
      if atOrBelow k key then gallop f key hi (min (hi + step) f.len) (step * 2)
      else some (lo, hi)
  else some (lo, hi)
termination_by f.len - lo
decreasing_by omega

/-- The halving of `entry_of_from`. -/
def betweenLoop (f : ZFence) (key : Bytes) (a b : ℕ) : Option ℕ :=
  if a < b then
    (f.key (a + (b - a) / 2)).bind fun k =>
      if atOrBelow k key then betweenLoop f key (a + (b - a) / 2 + 1) b
      else betweenLoop f key a (a + (b - a) / 2)
  else some a
termination_by b - a
decreasing_by all_goals omega

/-- `entry_of_from`. -/
def entryOfFrom (f : ZFence) (key : Bytes) (start : ℕ) : Option (Option ℕ) :=
  if f.len ≤ start ∨ key = [] then f.entryOf key
  else do
    let k ← f.key start
    if ¬ atOrBelow k key then f.entryOf key
    else
      let (lo, hi) ← f.gallop key start (start + 1) 1
      let a ← f.betweenLoop key (lo + 1) hi
      some (some (a - 1))

end ZFence

end Supdb

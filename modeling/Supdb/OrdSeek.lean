import Mathlib
import Supdb.OrdIndex
import Supdb.Lib.BigEndian
import Supdb.Lib.Search

/-!
# Seeks in the ordered index

A seek finds the first rank whose key is not below a query.  It compares heads, and reads a key only
where the query's head ties one.

* `OrdIndex.seekExactHint` – from the **top level**: every 64th head, then the one run of heads
  between two of them.
* `OrdIndex.seekExactFrom` – galloping from a rank the query is expected at or behind.
* `OrdIndex.seekInExact` – within a range of ranks.
* `OrdIndex.advanceBelow` – one rank at a time.

A seek also says whether the key at the rank is the query, where the heads can tell.  `Composer` and
`Builder` are the two ways a segment's index is made.

A head is read by position from the mapped file, where the source would panic outside it: a function
here that is `some` stays inside.
-/

namespace Supdb

open StorageLib

/-! ## Comparing short slices -/

/-- The bytes behind the last whole word, for slices shorter than a word. -/
def cmpShortTail : Bytes → Bytes → Ordering
  | a :: as, b :: bs => if a = b then cmpShortTail as bs else cmp a b
  | _, _ => .eq

/-- The loop of `cmp_short`, from byte `i`. -/
def cmpShortFrom (a b : Bytes) (n i : ℕ) : Ordering :=
  if i + 8 ≤ n then
    match cmp (beNat (slice a i (i + 8))) (beNat (slice b i (i + 8))) with
    | .eq => cmpShortFrom a b n (i + 8)
    | o => o
  else if i < n then
    if 8 ≤ n then
      -- the tail as the last word, over bytes found equal already
      (cmp (beNat (slice a (n - 8) n)) (beNat (slice b (n - 8) n))).then (cmp a.length b.length)
    else (cmpShortTail (slice a i n) (slice b i n)).then (cmp a.length b.length)
  else cmp a.length b.length
termination_by n - i

/-- `cmp_short`: slices of one length, a word at a time. -/
def cmpShort (a b : Bytes) : Ordering := cmpShortFrom a b (min a.length b.length) 0

/-- The loop of `select_lower_bound`. -/
def selectLoop (below : ℕ → Option Bool) (lo len : ℕ) : Option (ℕ × ℕ) :=
  if 1 < len then
    (below (lo + len / 2 - 1)).bind fun b => selectLoop below (if b then lo + len / 2 else lo)
      (len - len / 2)
  else some (lo, len)
termination_by len

/-- `select_lower_bound`: the first of the first `n` numbers that is not below. -/
def selectLowerBound (n : ℕ) (below : ℕ → Option Bool) : Option ℕ := do
  let (lo, len) ← selectLoop below 0 n
  if len = 1 then
    let b ← below lo
    some (if b then lo + 1 else lo)
  else some lo

namespace OrdIndex

/-! ## The seeks -/

/-- `head`: the head of a rank. -/
def head (o : OrdIndex) (i : ℕ) : Option Bytes := o.heads[i]?

/-- The gallop of `run_end`: the last head found equal, and the step that left the run. -/
def runGallop (o : OrdIndex) (h : Bytes) (start lo step : ℕ) : Option (ℕ × ℕ) :=
  if _h : 0 < step ∧ start + step < o.n then
    (o.head (start + step)).bind fun x =>
      if x = h then runGallop o h start (start + step) (step * 2) else some (lo, step)
  else some (lo, step)
termination_by o.n - (start + step)
decreasing_by omega

/-- `run_end`: the end of the run of heads equal to `h` that starts at `start`. -/
def runEnd (o : OrdIndex) (h : Bytes) (start : ℕ) : Option ℕ := do
  let (lo, step) ← o.runGallop h start start 1
  partitionPointM (fun m => (o.head m).map (fun x => decide (x = h))) (lo + 1)
    (min (start + step) o.n)

/-- The keys of a run of equal heads searched: the first rank whose key is not below. -/
def searchKeys (key : Bytes) (keyAt : ℕ → Option Bytes) (lo hi : ℕ) : ℕ :=
  partitionPoint (fun m => (keyAt m).any (· < key)) lo hi

/-- Whether the head of rank `lo`, if it is one of the ranks before `hi`, is `h`. -/
def ties (o : OrdIndex) (lo hi : ℕ) (h : Bytes) : Option Bool :=
  if hi ≤ lo then some false else (o.head lo).map (fun x => decide (x = h))

/-- `exact_at`: the answer from the first rank whose head is not below `h`. -/
def exactAt (o : OrdIndex) (lo : ℕ) (h key : Bytes) (keyAt : ℕ → Option Bytes) :
    Option (ℕ × Option Bool) := do
  let tie ← o.ties lo o.n h
  if ¬ tie then some (lo, o.uniformLen.map (fun _ => false))
  else
    match o.uniformLen with
    | some len =>
        if key.length ≤ len then some (lo, some (key.length = len))
        else do
          let stop ← o.runEnd h lo
          some (stop, some false)
    | none => do
        let stop ← o.runEnd h lo
        some (searchKeys key keyAt lo stop, none)

/-- `outside_prefix`: the answer for a query that does not carry the common prefix. -/
def outsidePrefix (o : OrdIndex) (key : Bytes) (keyAt : ℕ → Option Bytes) :
    Option (ℕ × Option Bool) :=
  if o.pfx = 0 then none
  else
    match o.learned.or (keyAt 0) with
    | none => some (0, some false)
    | some first =>
        let m := min (min o.pfx key.length) first.length
        match cmpShort (key.take m) (first.take m) with
        | .lt => some (0, some false)
        | .gt => some (o.n, some false)
        | .eq => if m < o.pfx then some (0, some false) else none

/-- The ranks between two heads of the top level that a query's answer lies in. -/
def window (o : OrdIndex) (h : Bytes) : Option (ℕ × ℕ) := do
  let t ← selectLowerBound o.top.length (fun i => (o.top[i]?).map (fun x => decide (x < h)))
  some (if t = 0 then (0, 0) else ((t - 1) * TOP_STRIDE + 1, min (t * TOP_STRIDE) o.n))

/-- `seek_exact_hint`: the answer, and the window the caller is told of. -/
def seekExactHint (o : OrdIndex) (key : Bytes) (keyAt : ℕ → Option Bytes) :
    Option ((ℕ × Option Bool) × Option (ℕ × ℕ)) :=
  if o.n = 0 then some ((0, some false), none)
  else
    match o.outsidePrefix key keyAt with
    | some e => some (e, none)
    | none => do
        let h := headOf key o.pfx
        let (lo, hi) ← o.window h
        if hi < lo then none
        else
          let i ← selectLowerBound (hi - lo) (fun i => (o.head (lo + i)).map (fun x => decide (x < h)))
          let e ← o.exactAt (lo + i) h key keyAt
          some (e, some (lo, hi))

/-- `seek_exact`. -/
def seekExact (o : OrdIndex) (key : Bytes) (keyAt : ℕ → Option Bytes) : Option (ℕ × Option Bool) :=
  (o.seekExactHint key keyAt).map (·.1)

/-- `seek`. -/
def seek (o : OrdIndex) (key : Bytes) (keyAt : ℕ → Option Bytes) : Option ℕ :=
  (o.seekExact key keyAt).map (·.1)

/-- The gallop of `seek_exact_from`: a rank whose head is below `h`, and one behind it whose head is
not, or the end. -/
def seekGallop (o : OrdIndex) (h : Bytes) (lo step : ℕ) : Option (ℕ × ℕ) :=
  if _h : 0 < step ∧ lo + step < o.n then
    (o.head (lo + step)).bind fun x =>
      if x < h then seekGallop o h (lo + step) (step * 2) else some (lo, lo + step)
  else some (lo, o.n)
termination_by o.n - lo
decreasing_by omega

/-- `seek_exact_from`. -/
def seekExactFrom (o : OrdIndex) (start : ℕ) (key : Bytes) (keyAt : ℕ → Option Bytes) :
    Option (ℕ × Option Bool) :=
  if start = 0 ∨ o.n ≤ start then o.seekExact key keyAt
  else
    match o.outsidePrefix key keyAt with
    | some e => some e
    | none => do
        let h := headOf key o.pfx
        let before ← o.head (start - 1)
        if h ≤ before then o.seekExact key keyAt
        else do
          let x ← o.head start
          if h ≤ x then o.exactAt start h key keyAt
          else do
            let (lo, hi) ← o.seekGallop h start 1
            let i ← selectLowerBound (hi - (lo + 1)) (fun i => (o.head (lo + 1 + i)).map (fun x => decide (x < h)))
            o.exactAt (lo + 1 + i) h key keyAt

/-- `seek_in_exact`'s search of the heads of ranks `lo..hi`, for a query that carries the prefix. -/
def searchIn (o : OrdIndex) (lo hi : ℕ) (key : Bytes) (keyAt : ℕ → Option Bytes) :
    Option (ℕ × Option Bool) := do
  let h := headOf key o.pfx
  let a ← partitionPointM (fun m => (o.head m).map (fun x => decide (x < h))) lo hi
  let tie ← o.ties a hi h
  if ¬ tie then some (a, some false)
  else
    match o.uniformLen with
    | some len =>
        if key.length ≤ len then some (a, some (key.length = len))
        else do
          let stop ← o.runEnd h a
          some (min stop hi, some false)
    | none => do
        let stop ← o.runEnd h a
        let r := searchKeys key keyAt a (min stop hi)
        some (r, if hi ≤ r then some false else none)

/-- `seek_in_exact`. -/
def seekInExact (o : OrdIndex) (lo hi : ℕ) (key : Bytes) (keyAt : ℕ → Option Bytes) :
    Option (ℕ × Option Bool) :=
  let hi := min hi o.n
  if hi ≤ lo then some (hi, some false)
  else
    let carried : Option (ℕ × Option Bool) :=
      if o.pfx = 0 then none
      else
        match o.learned.or (keyAt 0) with
        | none => some (lo, some false)
        | some first =>
            let m := min (min o.pfx key.length) first.length
            match cmpShort (key.take m) (first.take m) with
            | .lt => some (lo, some false)
            | .gt => some (hi, some false)
            | .eq => if m < o.pfx then some (lo, some false) else none
    match carried with
    | some e => some e
    | none => o.searchIn lo hi key keyAt

/-- The walk of `advance_below` over the keys, where the prefix is not learned. -/
def advanceKeys (o : OrdIndex) (key : Bytes) (keyAt : ℕ → Option Bytes) (r : ℕ) : ℕ :=
  if r < o.n ∧ (keyAt r).any (· < key) then advanceKeys o key keyAt (r + 1) else r
termination_by o.n - r
decreasing_by omega

/-- The walk of `advance_below` over the heads. -/
def advanceHeads (o : OrdIndex) (hk key : Bytes) (keyAt : ℕ → Option Bytes) (r : ℕ) : Option ℕ :=
  if r < o.n then
    (o.head r).bind fun h =>
      if hk < h then some r
      else
        let below : Bool :=
          match o.uniformLen with
          | some len => len < key.length
          | none => (keyAt r).any (· < key)
        if h = hk ∧ ¬ below then some r else advanceHeads o hk key keyAt (r + 1)
  else some r
termination_by o.n - r
decreasing_by omega

/-- `advance_below`. -/
def advanceBelow (o : OrdIndex) (start : ℕ) (key : Bytes) (keyAt : ℕ → Option Bytes) : Option ℕ :=
  match o.learned with
  | none => some (o.advanceKeys key keyAt start)
  | some first =>
      let m := min (min o.pfx key.length) first.length
      let carried : Option ℕ :=
        if o.pfx = 0 then none
        else
          match cmpShort (key.take m) (first.take m) with
          | .lt => some start
          | .gt => some o.n
          | .eq => if m < o.pfx then some start else none
      match carried with
      | some r => some r
      | none => o.advanceHeads (headOf key o.pfx) key keyAt start

end OrdIndex

/-! ## Composing -/

/-- `Composer`: the index composed a key at a time, told the count and the first and the last key.
-/
structure Composer where
  out : List Bytes
  pfx : ℕ
  len0 : ℕ
  uniform : Bool
  n : ℕ
  pushed : ℕ
  deriving DecidableEq, Repr

namespace Composer

/-- `new`. -/
def new (n : ℕ) (first last : Bytes) : Composer :=
  let pfx := if n = 0 then 0 else commonPrefix first last
  let len0 := if n = 0 then 0 else first.length
  ⟨[], pfx, len0, decide (0 < n ∧ len0 ≤ pfx + HEAD), n, 0⟩

/-- `push`. -/
def push (c : Composer) (key : Bytes) : Composer :=
  { c with uniform := c.uniform && decide (key.length = c.len0), out := c.out ++ [headOf key c.pfx],
           pushed := c.pushed + 1 }

/-- `finish`, and the file opened: every key it was told of is there. -/
def finish (c : Composer) : Option OrdIndex :=
  if c.pushed = c.n then
    some { n := c.n, pfx := c.pfx, uniformLen := if c.uniform then some c.len0 else none
           learned := none, heads := c.out
           top := (List.range ((c.n + TOP_STRIDE - 1) / TOP_STRIDE)).map
             (fun i => c.out.getD (i * TOP_STRIDE) []) }
  else none

end Composer

/-- `Builder`: the keys copied as they are written, and composed at the end. -/
structure Builder where
  starts : List ℕ
  bytes : Bytes
  n : ℕ
  deriving DecidableEq, Repr

namespace Builder

/-- `new`. -/
def new : Builder := ⟨[], [], 0⟩

/-- `push`.  A start is kept in 32 bits. -/
def push (b : Builder) (key : Bytes) : Builder :=
  ⟨b.starts ++ [b.bytes.length % 2 ^ 32], b.bytes ++ key, b.n + 1⟩

/-- The composer `finish_from` begins with. -/
def composerFor (n : ℕ) (keyAt : ℕ → Option Bytes) : Option Composer :=
  if n = 0 then some (Composer.new 0 [] [])
  else do
    let first ← keyAt 0
    let last ← keyAt (n - 1)
    some (Composer.new n first last)

/-- `finish_from`: `n` keys held elsewhere. -/
def finishFrom (n : ℕ) (keyAt : ℕ → Option Bytes) : Option OrdIndex := do
  let c ← composerFor n keyAt
  let c ← (List.range n).foldlM (fun c i => (keyAt i).map c.push) c
  c.finish

/-- `finish`. -/
def finish (b : Builder) : Option OrdIndex :=
  let starts := b.starts ++ [b.bytes.length % 2 ^ 32]
  finishFrom b.n fun i => do
    let a ← starts[i]?
    let z ← starts[i + 1]?
    getRange b.bytes a z

end Builder

end Supdb

import Supdb.Lz4Block

/-!
# The LZ4 encoder

A group is encoded in two parts: a parse chooses sequences, each a run of literals and a match some
bytes back, and `emit` writes them and the last run as a block.  There are two parses, the lazy one
and the shortest path over the longest match at every position, and both look for matches along hash
chains that are kept from group to group.

* **`Encoder`** – what is kept: the heads of the chains, the links and the running base.  A head
  names a position of this group only where it is over the base.
* `longestAt`, `lazyParse` – the lazy parse, which searches a position and the few after it and
  joins what it passes to the chains.
* `search`, `shortest` – the longest match at every position, and the cheapest path over them.
* `emit`, **`compressInto`** – the block and the call.

Every index and every unsigned difference is checked: a step that would panic has no result.  Prices
are 32-bit and wrap.
-/

namespace Supdb

open StorageLib

/-! ## Words and lengths -/

/-- The literals a block always ends in. -/
def LASTLITERALS : ℕ := 5
/-- The last match starts at least this many bytes before the block's end. -/
def MFLIMIT : ℕ := 12
/-- The farthest back a match's offset reaches. -/
def MAX_DISTANCE : ℕ := 65535
/-- The hash table's index bits. -/
def HASH_LOG : ℕ := 13
/-- How far short of a long match's end the search resumes. -/
def RESUME : ℕ := 3
/-- The largest group the encoder takes. -/
def MAX_INPUT : ℕ := 64 * 1024
/-- A price no path has. -/
def INF : ℕ := (2 ^ 32 - 1) / 4

/-- An unsigned difference. -/
def checkedSub (a b : ℕ) : Option ℕ := if b ≤ a then some (a - b) else none

lemma checkedSub_of_le {a b : ℕ} (h : b ≤ a) : checkedSub a b = some (a - b) := if_pos h

/-- `hash` of four bytes. -/
def hash (v : ℕ) : ℕ := v * 2654435761 % 2 ^ 32 / 2 ^ (32 - HASH_LOG)

/-- `trailing_zeros` of a word of `w` bits. -/
def trailingZeros : ℕ → ℕ → ℕ
  | 0, _ => 0
  | w + 1, x => if x % 2 = 1 then 0 else trailingZeros w (x / 2) + 1

/-- The bytes `common` compares one at a time. -/
def commonBytes (b : Bytes) (a s max l : ℕ) : Option ℕ :=
  if l < max then do
    let x ← b[a + l]?
    let y ← b[s + l]?
    if x = y then commonBytes b a s max (l + 1) else some l
  else some l
termination_by max - l

/-- `common` from `l` on, eight bytes a compare. -/
def commonFrom (b : Bytes) (a s max l : ℕ) : Option ℕ :=
  if l + 8 ≤ max then do
    let x ← readWord 8 b (a + l)
    let y ← readWord 8 b (s + l)
    if x ^^^ y ≠ 0 then some (l + trailingZeros 64 (x ^^^ y) / 8) else commonFrom b a s max (l + 8)
  else commonBytes b a s max l
termination_by max - l

/-- `common`: the length the bytes at `a` and `s` agree for, at most `max`. -/
def common (b : Bytes) (a s max : ℕ) : Option ℕ := commonFrom b a s max 0

/-- The length bytes a field of `k` costs beyond its nibble. -/
def ext (k : ℕ) : ℕ := if k < 15 then 0 else 1 + (k - 15) / 255

/-- What a run of `k` literals gains in length bytes by one more. -/
def litStep (k : ℕ) : ℕ := ext (k + 1) - ext k

/-- A last sequence of `k` literals. -/
def litRun (k : ℕ) : ℕ := 1 + ext k + k

/-- `max_output`: the longest block an input of `n` bytes can encode to. -/
def maxOutput (n : ℕ) : ℕ := n + n / 255 + 16

/-! ## The tables -/

/-- How hard the encoder looks. -/
structure Effort where
  attempts : ℕ
  seqCost : ℕ
  skipMin : ℕ
  lazy : ℕ
  deriving Repr, DecidableEq

/-- The effort the form ships with. -/
def Effort.SHIPPED : Effort := ⟨16, 0, 8, 1⟩

/-- What the encoder keeps between groups.  Its other vectors are scratch, cleared before each use.
-/
structure Encoder where
  head : List ℕ
  chain : List ℕ
  base : ℕ
  deriving Repr, DecidableEq

/-- `Encoder::new`. -/
def Encoder.new : Encoder := ⟨List.replicate (2 ^ HASH_LOG) 0, [], 0⟩

/-- A sequence found: where its literals start and how many they are, its offset and its match's
length. -/
structure Seq where
  litAt : ℕ
  lit : ℕ
  off : ℕ
  ml : ℕ
  deriving Repr, DecidableEq

/-- The base of the next group: the tables are cleared the one time the base would wrap. -/
def Encoder.freshBase (enc : Encoder) : Encoder :=
  if 2 ^ 32 - 1 - 2 * MAX_INPUT - 2 <
    enc.base then { enc with head := enc.head.map (fun _ => 0), base := 0 } else enc

/-- The tables during a parse, with the position before which every position is in its chain. -/
structure Tables where
  head : List ℕ
  chain : List ℕ
  ins : ℕ
  deriving Repr, DecidableEq

/-- How far back the position a head names is; zero where it names none of this group. -/
def linkBack (base prev s : ℕ) : Option ℕ :=
  if base < prev then checkedSub s (prev - base - 1) else some 0

/-- `insert`: position `s`, whose four bytes hash to `h`, at the head of its chain. -/
def insertAt (head chain : List ℕ) (s h base : ℕ) : Option (List ℕ × List ℕ) := do
  let prev ← head[h]?
  let d ← linkBack base prev s
  if s < chain.length then some (head.set h (base + s + 1), chain.set s (d % 2 ^ 16)) else none

/-- One candidate of a walk: the best match so far, or this one where it is longer, and whether
nothing can be. -/
def tryCandidate (input : Bytes) (q p v maxLen : ℕ) (best : ℕ × ℕ) : Option ((ℕ × ℕ) × Bool) := do
  let x ← input[q + best.1]?
  let y ← input[p + best.1]?
  if x = y then do
    let w ← readWord 4 input q
    if w = v then do
      let l ← common input q p maxLen
      if best.1 < l then do
        let off ← checkedSub p q
        some ((l, off), decide (l = maxLen))
      else some (best, false)
    else some (best, false)
  else some (best, false)

/-- Whether a candidate is past the window, where that is asked. -/
def tooFar (window : Bool) (p q : ℕ) : Option Bool :=
  if window then (checkedSub p q).map (fun d => decide (MAX_DISTANCE < d)) else some false

/-- The walk along the chain from `cand`, `tries` candidates of it.  Where `window` is set a
candidate past the window ends it. -/
def walk (window : Bool) (input : Bytes) (p v maxLen base : ℕ) (chain : List ℕ) :
    ℕ → ℕ → ℕ × ℕ → Option (ℕ × ℕ)
  | 0, _, best => some best
  | tries + 1, cand, best =>
      if base < cand then do
        let q := cand - base - 1
        let far ← tooFar window p q
        if far then some best
        else do
          let (best, last) ← tryCandidate input q p v maxLen best
          if last then some best
          else do
            let c ← chain[q]?
            if c = 0 then some best
            else do
              let cand ← checkedSub cand c
              walk window input p v maxLen base chain tries cand best
      else some best

/-! ## The lazy parse -/

/-- Every position from `ins` on and before `p` joined to its chain. -/
def joinUpTo (input : Bytes) (base p : ℕ) (t : Tables) : Option Tables := do
  let (head, chain) ← (List.range' t.ins (p - t.ins)).foldlM
    (fun (hc : List ℕ × List ℕ) s => do
      let v ← readWord 4 input s
      insertAt hc.1 hc.2 s (hash v) base) (t.head, t.chain)
  some ⟨head, chain, max t.ins p⟩

/-- `longest_at`: the longest match at `p`, after every position before it has joined its chain. -/
def longestAt (input : Bytes) (p limit attempts base : ℕ) (t : Tables) :
    Option ((ℕ × ℕ) × Tables) := do
  let t ← joinUpTo input base p t
  let v ← readWord 4 input p
  let maxLen ← checkedSub limit p
  let cand ← t.head[hash v]?
  let best ← walk false input p v maxLen base t.chain attempts cand (MINMATCH - 1, 0)
  some (best, t)

/-- The `'ahead` loop: a match at `s`, and whether one of the next positions, from the `k + 1`th on,
starts one worth more.  Each turn asks the position after the one before it, so `fuel` is the
positions left. -/
def ahead (input : Bytes) (e : Effort) (base limit lastStart : ℕ) :
    ℕ → ℕ → ℕ → ℕ × ℕ → Tables → Option (ℕ × (ℕ × ℕ) × Tables)
  | 0, _, _, _, _ => none
  | fuel + 1, k, s, best, t =>
      if e.lazy < k + 1 then some (s, best, t)
      else if lastStart < s + (k + 1) then some (s, best, t)
      else do
        let (found, t) ← longestAt input (s + (k + 1)) limit e.attempts base t
        if best.1 + k < found.1 then ahead input e base limit lastStart fuel 0 (s + (k + 1)) found t
        else ahead input e base limit lastStart fuel (k + 1) s best t

/-- The turns of the lazy parse; each moves on, so `fuel` is the positions left. -/
def lazyFrom (input : Bytes) (e : Effort) (base limit lastStart : ℕ) :
    ℕ → ℕ → ℕ → Tables → List Seq → Option (List Seq × Tables)
  | fuel, s, anchor, t, seqs =>
      if s ≤ lastStart then
        match fuel with
        | 0 => none
        | fuel + 1 => do
            let (best, t) ← longestAt input s limit e.attempts base t
            if best.1 < MINMATCH then lazyFrom input e base limit lastStart fuel (s + 1) anchor t seqs
            else do
              let (s, best, t) ← ahead input e base limit lastStart (lastStart + 1) 0 s best t
              let lit ← checkedSub s anchor
              let seq : Seq := ⟨anchor, lit, best.2 % 2 ^ 16, best.1⟩
              lazyFrom input e base limit lastStart fuel (s + best.1) (s + best.1) t (seqs ++ [seq])
      else some (seqs, t)
termination_by fuel => fuel

/-- `lazy`: the lazy parse, its sequences last first. -/
def lazyParse (enc : Encoder) (input : Bytes) (e : Effort) : Option (List Seq × Encoder) := do
  let n := input.length
  let enc := enc.freshBase
  let chain := enc.chain ++ List.replicate (n - enc.chain.length) 0
  let lastStart ← checkedSub n MFLIMIT
  let limit ← checkedSub n LASTLITERALS
  let (seqs, t) ← lazyFrom input e enc.base limit lastStart (n + 1) 0 0 ⟨enc.head, chain.take n, 0⟩
    []
  some (seqs.reverse, ⟨t.head, t.chain ++ chain.drop n, enc.base + n + 1⟩)

/-! ## The longest match at every position -/

/-- What the search has so far: the tables, the longest match at each position, and the long match
whose inside is not searched, from where to where and its offset. -/
structure Found where
  head : List ℕ
  chain : List ℕ
  best : List (ℕ × ℕ)
  run : ℕ × ℕ × ℕ
  deriving Repr, DecidableEq

/-- `search` at one position. -/
def searchAt (input : Bytes) (e : Effort) (base limit : ℕ) (f : Found) (s : ℕ) : Option Found := do
  let v ← readWord 4 input s
  if s < f.run.2.1 - RESUME ∧ f.run.1 < s then do
    let left ← checkedSub f.run.2.1 s
    let (head, chain) ← insertAt f.head f.chain s (hash v) base
    if s < f.best.length then some ⟨head, chain, f.best.set s (left, f.run.2.2), f.run⟩ else none
  else do
    let maxLen ← checkedSub limit s
    let cand ← f.head[hash v]?
    let (len, off) ← walk true input s v maxLen base f.chain e.attempts cand (MINMATCH - 1, 0)
    let (head, chain) ← insertAt f.head f.chain s (hash v) base
    if MINMATCH ≤ len then
      if s < f.best.length then
        some ⟨head, chain, f.best.set s (len, off % 2 ^ 16),
          if e.skipMin ≤ len then (s, s + len, off % 2 ^ 16) else f.run⟩
      else none
    else some ⟨head, chain, f.best, f.run⟩

/-- `search`: the longest match at every position a match may start at, and the encoder then. -/
def search (enc : Encoder) (input : Bytes) (e : Effort) : Option (List (ℕ × ℕ) × Encoder) := do
  let n := input.length
  let enc := enc.freshBase
  let lastStart ← checkedSub n MFLIMIT
  let limit ← checkedSub n LASTLITERALS
  let f ← (List.range (lastStart + 1)).foldlM (searchAt input e enc.base limit)
    ⟨enc.head, List.replicate n 0, List.replicate n (0, 0), (0, 0, 0)⟩
  some (f.best, ⟨f.head, f.chain, enc.base + n + 1⟩)

/-! ## The shortest path -/

/-- The shortest path so far: the price of the bytes before each position with a match ending there,
the match that does, and the run of literals the cheapest price inside a run has; the cheapest end
and its price; and the price and length of the run that ends here. -/
structure Path where
  mCost : List ℕ
  mFrom : List (ℕ × ℕ)
  pLit : List ℕ
  stop : ℕ
  cost : ℕ
  pc : ℕ
  pl : ℕ
  deriving Repr, DecidableEq

/-- A match offered: it starts at `i` with the offset `off`, ends at `j` and makes the price `c`. -/
def Path.offer (t : Path) (j c : ℕ) (m : ℕ × ℕ) : Option Path := do
  let old ← t.mCost[j]?
  if c < old then
    if j < t.mFrom.length then some { t with mCost := t.mCost.set j c, mFrom := t.mFrom.set j m }
      else none
  else some t

/-- Position `i` on the path: the end it would make, and the run of literals that ends at it. -/
def Path.arrive (n : ℕ) (t : Path) (i : ℕ) : Option Path := do
  let fresh ← t.mCost[i]?
  let c := (fresh + litRun (n - i)) % 2 ^ 32
  let ends := 0 < i ∧ fresh < INF ∧ (c < t.cost ∨ (c = t.cost ∧ t.stop < i))
  let carry := if i = 0 then INF else (t.pc + 1 + litStep t.pl) % 2 ^ 32
  let (pc, pl) := if fresh ≤ carry then (fresh, 0) else (carry, t.pl + 1)
  if i < t.pLit.length then
    some { t with
      stop := if ends then i else t.stop
      cost := if ends then c else t.cost
      pc := pc
      pl := pl
      pLit := t.pLit.set i pl }
  else none

/-- The shorter lengths of a match at `i`, offered where another match that reaches further starts.
-/
def Path.offerCuts (best : List (ℕ × ℕ)) (i reach seq off : ℕ) (js : List ℕ) (t : Path) :
    Option Path :=
  js.foldlM (fun t j => do
    let b ← best[j]?
    if MINMATCH ≤ b.1 ∧ reach < j + b.1 then t.offer j ((seq + ext (j - i - MINMATCH)) % 2 ^ 32) (i, off)
    else some t) t

/-- `shortest` at one position. -/
def Path.visit (n lastStart : ℕ) (e : Effort) (best : List (ℕ × ℕ)) (t : Path) (i : ℕ) :
    Option Path := do
  let t ← t.arrive n i
  if lastStart < i then some t
  else do
    let (longest, off) ← best[i]?
    if longest < MINMATCH then some t
    else if 0 < t.pl ∧ 0 < i ∧ best[i - 1]? = some (longest + 1, off) then some t
    else do
      let seq := (t.pc + 3 + e.seqCost) % 2 ^ 32
      let reach := i + longest
      let t ← t.offer reach ((seq + ext (longest - MINMATCH)) % 2 ^ 32) (i, off)
      let first := max (i + MINMATCH) (reach - MINMATCH)
      t.offerCuts best i reach seq off (List.range' first (min reach (lastStart + 1) - first))

/-- The way back from the end, each match with the run before it. -/
def backFrom (mFrom : List (ℕ × ℕ)) (pLit : List ℕ) : ℕ → ℕ → List Seq → Option (List Seq)
  | fuel, e2, seqs =>
      if 0 < e2 then
        match fuel with
        | 0 => none
        | fuel + 1 => do
            let (s, off) ← mFrom[e2]?
            let lit ← pLit[s]?
            let litAt ← checkedSub s lit
            let ml ← checkedSub e2 s
            backFrom mFrom pLit fuel litAt (seqs ++ [⟨litAt, lit, off, ml⟩])
      else some seqs
termination_by fuel => fuel

/-- `shortest`: the cheapest path over the matches found, its sequences last first. -/
def shortest (input : Bytes) (e : Effort) (best : List (ℕ × ℕ)) : Option (List Seq) := do
  let n := input.length
  let lastStart ← checkedSub n MFLIMIT
  let t ← (List.range (n + 1)).foldlM (Path.visit n lastStart e best)
    ⟨(List.replicate (n + 1) INF).set 0 0, List.replicate (n + 1) (0, 0), List.replicate (n + 1) 0,
      0, litRun n, INF, 0⟩
  backFrom t.mFrom t.pLit (n + 1) t.stop []

/-! ## The block -/

/-- `x` written at `o`. -/
def putAt (out : Bytes) (o : ℕ) (x : Bytes) : Option Bytes :=
  if o + x.length ≤ out.length then some (overwrite out o x) else none

/-- The loop of `put_len`, with what is left of the length. -/
def putLenLoop (out : Bytes) (o r : ℕ) : Option (Bytes × ℕ) :=
  if 255 ≤ r then
    match putAt out o [255] with
    | none => none
    | some out => putLenLoop out (o + 1) (r - 255)
  else (putAt out o [UInt8.ofNat r]).map (fun out => (out, o + 1))
termination_by r

/-- `put_len`: the length bytes a length of `k` past its token's nibble writes. -/
def putLen (out : Bytes) (o k : ℕ) : Option (Bytes × ℕ) :=
  if k < 15 then some (out, o) else putLenLoop out o (k - 15)

/-- `emit`'s last run, the literals from `pos` on. -/
def emitLast (input out : Bytes) (o pos : ℕ) : Option (ℕ × Bytes) := do
  let lit ← checkedSub input.length pos
  let out ← putAt out o [UInt8.ofNat (min lit 15 * 16)]
  let (out, o) ← putLen out (o + 1) lit
  let lits ← getRange input pos input.length
  let out ← putAt out o lits
  some (o + lit, out)

/-- `emit`: the sequences in order and the last run. -/
def emitFrom (input : Bytes) : List Seq → Bytes → ℕ → ℕ → Option (ℕ × Bytes)
  | [], out, o, pos => emitLast input out o pos
  | q :: qs, out, o, _ => do
      let more ← checkedSub q.ml MINMATCH
      let out ← putAt out o [UInt8.ofNat (min q.lit 15 * 16 + min more 15)]
      let (out, o) ← putLen out (o + 1) q.lit
      let lits ← getRange input q.litAt (q.litAt + q.lit)
      let out ← putAt out o lits
      let o := o + q.lit
      let out ← putAt out o (leBytes 2 q.off)
      let (out, o) ← putLen out (o + 2) more
      emitFrom input qs out o (q.litAt + q.lit + q.ml)

/-- `parse`: the sequences chosen, last first. -/
def Encoder.parse (enc : Encoder) (input : Bytes) (e : Effort) : Option (List Seq × Encoder) :=
  if input.length < MFLIMIT + 1 ∨ e.attempts = 0 then some ([], enc)
  else if 0 < e.lazy then lazyParse enc input e
  else do
    let (best, enc) ← search enc input e
    let seqs ← shortest input e best
    some (seqs, enc)

/-- `compress_into`: `input` as a block into `out`, with its length, or no block where `out` is too
short or `input` too long. -/
def Encoder.compressInto (enc : Encoder) (input out : Bytes) (e : Effort) :
    Option (Option ℕ × Encoder × Bytes) :=
  if MAX_INPUT < input.length ∨ out.length < maxOutput input.length then some (none, enc, out)
  else do
    let (seqs, enc) ← enc.parse input e
    let (len, out) ← emitFrom input seqs.reverse out 0 0
    some (some len, enc, out)

end Supdb

import Supdb.HashedGrown
import Supdb.SealOrder
import Supdb.Tier

/-!
# The seal of a hashed table

A seal writes a frozen table in its keys' order, cut at the partitions' fences into one piece a
range.  It reads the records either off the table's chains or off a **copy** of the table: an arena
in key order, of each key its bytes and its **run**, the chunks of its chain from the oldest on.

* `HashedTable.fromFrozen` – the copy.
* `FrozenSnap` – a snapshot kept on the table, every entry of it once and in key order; `SealCopies`
  – what the job finds of them, and whether it makes its own.
* `chainEntry`, `runEntry` – a key's record read off its chain, and off its run.
* `sealRanges` – the pieces, range by range; `HashedTable.sealRecords` – the job.
* `chainEntry_eq`, `runEntry_eq` – **both read what the table holds of the key.**
* `HashedTable.Held.sealRecords_eq` – the job, **whatever it finds kept**, writes `SealPlan.pieces`.
* `writeSealed_ok` – a piece within the format's limits is written, and **its file holds its
  records**.
* `seal_writes_table` – **a seal writes the table exactly**, and a reader of its pieces finds it so.
-/

namespace Supdb

open StorageLib

/-! ## The copy -/

/-- An entry of a copy: its key's place, the table's entry, and its run's place. -/
structure SnapKey where
  off : ℕ
  len : ℕ
  frozen : ℕ
  frun : ℕ
  deriving DecidableEq, Repr

/-- A copy of a table: the arena's bytes and the entries, in key order. -/
structure Snapshot where
  arena : Bytes
  ents : List SnapKey

namespace HashedTable

/-- The chain of an entry, newest first, each chunk with its length word. -/
def walkChain (t : HashedTable) : ℕ → ℕ → Option (List (ℕ × ℕ))
  | 0, _ => none
  | fuel + 1, at0 =>
      if at0 = NO_CHUNK then some []
      else do
        let len ← t.chunkLen at0
        let prev ← t.chunkPrev at0
        let rest ← t.walkChain fuel prev
        some ((at0, len) :: rest)

/-- A chunk as a run holds it: its offset, its length, and a value's bytes. -/
def runRecord (t : HashedTable) (c : ℕ × ℕ) : Option Bytes :=
  if c.2 = TOMB_LEN then some (leBytes 8 c.1 ++ leBytes 4 c.2)
  else (t.valueAt c.1).map (fun v => leBytes 8 c.1 ++ (leBytes 4 c.2 ++ v))

/-- `write_key_run`: the key, and its chain behind a count and a length. -/
def writeKeyRun (t : HashedTable) (e : MemEntry) : Option Bytes := do
  let key ← t.keyOf e
  let chain ← t.walkChain (t.vals.tail + 1) e.chainHead
  let recs ← chain.reverse.mapM t.runRecord
  let bytes := (chain.map (fun c => 12 + if c.2 = TOMB_LEN then 0 else c.2)).sum
  some (key ++ (leBytes 4 chain.length ++ (leBytes 4 bytes ++ recs.flatten)))

/-- The whole chain of an entry, oldest chunk first: how many chunks, and of each its offset, its
length and its value. -/
def runOf (t : HashedTable) (e : MemEntry) : Option (ℕ × Bytes) := do
  let chain ← t.walkChain (t.vals.tail + 1) e.chainHead
  let records ← chain.reverse.mapM t.runRecord
  some (chain.length, records.flatten)

/-- One entry copied behind those before it, within the bytes reserved. -/
def copyEntry (t : HashedTable) (bytes : ℕ) (s : Snapshot) (i : ℕ) : Option Snapshot := do
  let e ← t.entries[i]?
  let run ← t.writeKeyRun e
  let p := s.arena.length
  if p + run.length ≤ bytes then some ⟨s.arena ++ run, s.ents ++ [⟨p, e.klen, i, p + e.klen⟩]⟩
    else none

/-- `from_frozen`: none for a table the arena cannot address; the outer `none` is a panic. -/
def fromFrozen (t : HashedTable) (order : List ℕ) : Option (Option Snapshot) :=
  let bytes := t.keys.used + t.vals.used + 8 * order.length
  if 2 ^ 32 - 1 < bytes then some none
  else (order.foldlM (t.copyEntry bytes) ⟨[], []⟩).map some

end HashedTable

namespace Snapshot

/-- `slice`: no bytes touch no block. -/
def slice (s : Snapshot) (off len : ℕ) : Option Bytes :=
  if len = 0 then some [] else getRange s.arena off (off + len)

/-- `key_of`. -/
def keyOf (s : Snapshot) (e : SnapKey) : Option Bytes := s.slice e.off e.len

/-- `run`: a run's count and its records. -/
def run (s : Snapshot) (off : ℕ) : Option (ℕ × Bytes) := do
  let head ← s.slice off 8
  let v ← s.slice (off + 8) (leNat (head.drop 4))
  some (leNat (head.take 4), v)

end Snapshot

/-- A snapshot kept on a frozen table (`FrozenSnaps`), whoever made it: every entry of the table
once and in key order, and where it is a copy every entry's chain. -/
structure FrozenSnap (t : HashedTable) where
  snap : Snapshot
  copied : Bool
  once : (snap.ents.map SnapKey.frozen).Perm (List.range t.entries.length)
  keys : ∀ x ∈ snap.ents, snap.keyOf x = t.entries[x.frozen]?.bind t.keyOf
  sorted : snap.ents.Pairwise (fun x y => ∀ k ∈ snap.keyOf x, ∀ l ∈ snap.keyOf y, k ≤ l)
  runs : copied = true → ∀ x ∈ snap.ents, snap.run x.frun = t.entries[x.frozen]?.bind t.runOf

/-- What the job of a seal finds on its table, and what it does about a copy. -/
structure SealCopies (t : HashedTable) where
  /-- Snapshots are kept on frozen tables. -/
  frozenSnaps : Bool
  /-- The job has a handle to publish a copy through. -/
  publishes : Bool
  /-- A copy is made where the table has none. -/
  build : Bool
  /-- The records stream from the copy. -/
  fromSnapshot : Bool
  /-- `best`: the snapshot kept on the table, a copy where there is one. -/
  best : Option (FrozenSnap t)
  /-- The copy another thread sets on the table before the job's own. -/
  won : Option { h : FrozenSnap t // h.copied = true }

/-- The loop of `run_visible`, at `p`, over the chunks left. -/
def visibleLoop (v : Bytes) (wm : ℕ) : ℕ → ℕ → ℕ → Bool → Option (ℕ × ℕ × Bool)
  | 0, p, start, tomb => some (start, p, tomb)
  | n + 1, p, start, tomb => do
      let at0 ← readWord 8 v p
      if wm ≤ at0 then some (start, p, tomb)
      else do
        let len ← readWord 4 v (p + 8)
        if len = TOMB_LEN then visibleLoop v wm n (p + 12) (p + 12) true
        else visibleLoop v wm n (p + 12 + len) start tomb

/-- `run_visible`: the range of a run's live values, and whether it holds a tombstone. -/
def runVisible (n : ℕ) (v : Bytes) (wm : ℕ) : Option (ℕ × ℕ × Bool) := visibleLoop v wm n 0 0 false

/-- The values of a range of a run. -/
def runValues (v : Bytes) (stop p : ℕ) : Option (List Bytes) :=
  if _h : p < stop then do
    let len ← readWord 4 v (p + 8)
    let value ← getRange v (p + 12) (p + 12 + len)
    let rest ← runValues v stop (p + 12 + len)
    some (value :: rest)
  else some []
termination_by stop - p

/-! ## The records -/

/-- A seal as it is asked for. -/
structure SealPlan where
  putOne : Bool
  firstId : ℕ
  endSeq : ℕ
  firstPartition : Bool
  limit : ℕ
  fences : List Fence

/-- A record read, and whether it is written by `put_one`. -/
abbrev SealRec := Entry × Bool

/-- A key's record read off its chain. -/
def chainEntry (plan : SealPlan) (t : HashedTable) (i : ℕ) : Option SealRec := do
  let e ← t.entries[i]?
  let key ← t.keyOf e
  let (offs, tomb) ← t.liveOffsInto e SEE_ALL
  let values ← offs.mapM t.valueAt
  some (⟨key, values, tomb⟩, plan.putOne && !tomb && offs.length == 1)

/-- Whether a range of a run is one value. -/
def oneValue (v : Bytes) (start stop : ℕ) : Option Bool :=
  if 12 ≤ stop - start then (readWord 4 v (start + 8)).map (fun len => start + 12 + len == stop)
    else some false

/-- A key's record read off its run. -/
def runEntry (plan : SealPlan) (s : Snapshot) (e : SnapKey) : Option SealRec := do
  let (n, v) ← s.run e.frun
  let (start, stop, tomb) ← runVisible n v SEE_ALL
  let one ← if plan.putOne && !tomb then oneValue v start stop else some false
  let key ← s.keyOf e
  let values ← runValues v stop start
  some (⟨key, values, tomb⟩, one)

/-- A piece being written, and whether any key of it ended with a tombstone. -/
abbrev SealWriter := PieceWriter × Bool

/-- A record written: by `put_one`, or by `begin`, a `value` each and `end_with`. -/
def putRecord (env : MergeEnv) (s : SealWriter) (r : SealRec) : Except String SealWriter :=
  if r.2 then do
    let seg ← s.1.seg.putOne env.lz r.1.key (r.1.values.headD [])
    .ok (⟨seg, s.1.keys ++ [r.1.key]⟩, s.2)
  else do
    let w ← s.1.entry env.lz r.1
    .ok (w, s.2 || r.1.tomb)

/-- The records of one range, read and written one after another. -/
def writeRecords {ρ : Type} (env : MergeEnv) (read : ρ → Option SealRec) :
    List ρ → SealWriter → Option (Except String SealWriter)
  | [], s => some (.ok s)
  | r :: rs, s => do
      let e ← read r
      match putRecord env s e with
      | .error msg => some (.error msg)
      | .ok s => writeRecords env read rs s

/-! ## The pieces -/

/-- The names a seal gives its pieces. -/
inductive SealName where
  | first (id endSeq : ℕ)
  | whole (id endSeq : ℕ)
  | piece (name : SegName)
  deriving DecidableEq, Repr

/-- A piece a seal wrote. -/
structure SealedPiece where
  name : SealName
  file : Bytes
  ord : OrdIndex

/-- The ranges a table is cut into: the partitions' fences, or the whole of the keys. -/
def SealPlan.ranges (plan : SealPlan) : List Fence :=
  if plan.fences = [] then [([], none)] else plan.fences

/-- A piece's name, by what it covers and how large it got. -/
def sealName (plan : SealPlan) (id : ℕ) (f : Fence) (tombs : Bool) (len : ℕ) : SealName :=
  if plan.ranges.length = 1 ∧ f = ([], none) then
    if plan.firstPartition ∧ ¬ tombs ∧
      len ≤ plan.limit then .first id plan.endSeq else .whole id plan.endSeq
  else .piece ⟨.pcs, id, plan.endSeq, f⟩

/-- A piece finished. -/
def finishSealed (env : MergeEnv) (plan : SealPlan) (id : ℕ) (f : Fence) (s : SealWriter) :
    Except String SealedPiece :=
  match s.1.finish env.host env.lz with
  | .error e => .error ("seal finish: " ++ e)
  | .ok (file, ord) => .ok ⟨sealName plan id f s.2 file.length, file, ord⟩

/-- The records below a range's end, and those behind them. -/
def cutRange {ρ : Type} (keyAt : ρ → Option Bytes) (hi : Option Bytes) : List ρ →
    Option (List ρ × List ρ)
  | [] => some ([], [])
  | r :: rs => do
      let k ← keyAt r
      if hi.any (fun h => h ≤ k) then some ([], r :: rs)
      else do
        let (mine, rest) ← cutRange keyAt hi rs
        some (r :: mine, rest)

/-- The ranges from the `ri`-th on, each with records of its own written as a piece. -/
def sealRanges {ρ : Type} (env : MergeEnv) (plan : SealPlan) (read : ρ → Option SealRec)
    (keyAt : ρ → Option Bytes) : ℕ → List Fence → List ρ → Option (Except String (List SealedPiece))
  | _, [], _ => some (.ok [])
  | ri, f :: fs, recs => do
      let (mine, rest) ← cutRange keyAt f.2 recs
      if mine.isEmpty then sealRanges env plan read keyAt (ri + 1) fs rest
      else
        match ← writeRecords env read mine (.create env.opts, false) with
        | .error e => some (.error e)
        | .ok s =>
            match finishSealed env plan (plan.firstId + ri) f s with
            | .error e => some (.error e)
            | .ok piece => do
                let pieces ← sealRanges env plan read keyAt (ri + 1) fs rest
                some (pieces.map (piece :: ·))

/-- The snapshot on the table that the job takes its order from: one that holds every entry. -/
def SealCopies.kept {t : HashedTable} (c : SealCopies t) : Option (FrozenSnap t) :=
  c.best.filter (fun h => c.frozenSnaps && h.snap.ents.length == t.entries.length)

/-- The order the job writes in: the snapshot's, or the table sorted. -/
def SealCopies.order {t : HashedTable} (c : SealCopies t) : Option (List ℕ) :=
  match c.kept with
  | some h => some (h.snap.ents.map SnapKey.frozen)
  | none => t.slotsInKeyOrder

/-- The copy the job has: the one on the table, or its own where one is asked for and can be
addressed, unless another thread's was set first. -/
def SealCopies.copyOf {t : HashedTable} (c : SealCopies t) (order : List ℕ) :
    Option (Option Snapshot) :=
  if ¬ c.publishes then some none
  else
    match c.kept.filter FrozenSnap.copied with
    | some h => some (some h.snap)
    | none =>
        if ¬ c.build then some none
        else (t.fromFrozen order).map (Option.map (fun built =>
          if c.frozenSnaps then (c.won.map (fun h => h.1.snap)).getD built else built))

/-- The job of `seal_table`: the order off a snapshot kept on the table, or sorted here, and the
pieces read off the copy or off the chains. -/
def HashedTable.sealRecords (env : MergeEnv) (plan : SealPlan) (t : HashedTable)
    (c : SealCopies t) : Option (Except String (List SealedPiece)) := do
  let order ← c.order
  let copy ← c.copyOf order
  match if c.fromSnapshot then copy else none with
  | some s => sealRanges env plan (runEntry plan s) s.keyOf 0 plan.ranges s.ents
  | none => sealRanges env plan (chainEntry plan t) (fun i => t.entries[i]?.bind t.keyOf) 0 plan.ranges order

/-! ## Runs -/

/-- The length word of a chunk. -/
def lenWord : Option Bytes → ℕ
  | some value => value.length
  | none => TOMB_LEN

/-- A chunk in a run. -/
def recBytes (d : ℕ × Option Bytes) : Bytes :=
  leBytes 8 d.1 ++ (leBytes 4 (lenWord d.2) ++ d.2.getD [])

/-- A chain as a run holds it, oldest first. -/
def runBytes (l : List (ℕ × Option Bytes)) : Bytes := l.reverse.flatMap recBytes

/-- What the chunks of a run leave, oldest first: the values behind the newest tombstone with their
offsets, and whether there is one. -/
def liveFold (s : List (ℕ × Bytes) × Bool) (d : ℕ × Option Bytes) : List (ℕ × Bytes) × Bool :=
  match d.2 with
  | some value => (s.1 ++ [(d.1, value)], s.2)
  | none => ([], true)

/-- Live values as chunks. -/
def asChunk (d : ℕ × Bytes) : ℕ × Option Bytes := (d.1, some d.2)

/-- Chunks whose words a run can hold. -/
def ChunkFits (d : ℕ × Option Bytes) : Prop := d.1 < SEE_ALL ∧ ∀ v ∈ d.2, v.length < TOMB_LEN

section Runs

variable {t : HashedTable} {l cs : List (ℕ × Option Bytes)} {d : ℕ × Option Bytes} {fuel : ℕ}

lemma length_recBytes (d : ℕ × Option Bytes) : (recBytes d).length = pushLen d.2 := by
  obtain ⟨off, value⟩ := d
  cases value with
  | none => simp [recBytes, pushLen, CHUNK_HDR]
  | some v =>
      simp only [recBytes, pushLen, CHUNK_HDR, List.length_append, length_leBytes, Option.getD_some]
      omega

lemma lenWord_lt (h : ChunkFits d) : lenWord d.2 < 2 ^ 32 := by
  obtain ⟨off, value⟩ := d
  cases value with
  | none => exact (by decide : TOMB_LEN < 2 ^ 32)
  | some v => exact (h.2 v rfl).trans (by decide)

lemma Linked.mem (h : Linked t.vals l) (hd : d ∈ l) : ∃ prev, ChunkAt t.vals d.1 prev d.2 := by
  induction l with
  | nil => exact absurd hd List.not_mem_nil
  | cons c l ih =>
      rcases List.mem_cons.mp hd with rfl | hd
      · exact ⟨_, h.1⟩
      · exact ih h.2.2 hd

lemma Linked.fits (ha : t.vals.Ok) (h : Linked t.vals l) (hd : d ∈ l) : ChunkFits d := by
  obtain ⟨prev, hchunk⟩ := h.mem hd
  refine ⟨(hchunk.lt ha).trans (by decide), fun v hv => ?_⟩
  rw [Option.mem_def] at hv
  rw [hv] at hchunk
  exact hchunk.2.2.2

/-- The walk that a copy makes. -/
lemma walkChain_eq (ha : t.vals.Ok) (h : Linked t.vals l) (hfuel : l.length < fuel) :
    t.walkChain fuel (newest l) = some (l.map (fun d => (d.1, lenWord d.2))) := by
  induction l generalizing fuel with
  | nil =>
      obtain ⟨fuel, rfl⟩ : ∃ n, fuel = n + 1 := ⟨fuel - 1, by omega⟩
      rw [HashedTable.walkChain, newest, if_pos rfl]
      rfl
  | cons d l ih =>
      obtain ⟨fuel, rfl⟩ : ∃ n, fuel = n + 1 := ⟨fuel - 1, by omega⟩
      obtain ⟨off, value⟩ := d
      obtain ⟨hchunk, hprev, hlinked⟩ := h
      have hne : off ≠ NO_CHUNK := by
        have hlt := hchunk.lt ha
        rintro rfl
        exact absurd hlt (by decide)
      have hlen : t.chunkLen off = some (lenWord value) := by
        cases value with
        | none => exact chunkLen_none hchunk
        | some v => exact chunkLen_some hchunk
      rw [List.length_cons] at hfuel
      rw [HashedTable.walkChain, newest, if_neg hne, hlen, chunkPrev_eq hchunk hprev]
      simp only [Option.bind_eq_bind, Option.bind_some, ih hlinked (by omega : l.length < fuel)]
      rfl

lemma runRecord_eq (h : Linked t.vals l) (hd : d ∈ l) :
    t.runRecord (d.1, lenWord d.2) = some (recBytes d) := by
  obtain ⟨prev, hchunk⟩ := h.mem hd
  obtain ⟨off, value⟩ := d
  cases value with
  | none =>
      show t.runRecord (off, TOMB_LEN) = _
      rw [HashedTable.runRecord, if_pos rfl, recBytes]
      simp [lenWord]
  | some v =>
      have hword : v.length ≠ TOMB_LEN := hchunk.2.2.2.ne
      show t.runRecord (off, v.length) = _
      rw [HashedTable.runRecord, if_neg hword, valueAt_eq hchunk]
      rfl

lemma runRecords_eq (h : Linked t.vals l) (hcs : ∀ d ∈ cs, d ∈ l) :
    (cs.map (fun d => (d.1, lenWord d.2))).mapM t.runRecord = some (cs.map recBytes) := by
  induction cs with
  | nil => rfl
  | cons d cs ih =>
      obtain ⟨hd, hcs⟩ := List.forall_mem_cons.mp hcs
      rw [List.map_cons, List.mapM_cons, runRecord_eq h hd, ih hcs]
      rfl

lemma length_runBytes (l : List (ℕ × Option Bytes)) :
    (runBytes l).length = (l.map (fun d => pushLen d.2)).sum := by
  rw [runBytes, List.length_flatMap, ← List.sum_reverse, ← List.map_reverse, List.reverse_reverse]
  refine congrArg _ (List.map_congr_left (fun d _ => length_recBytes d))

/-- No chunk of a run is empty. -/
lemma length_le_runBytes (l : List (ℕ × Option Bytes)) : l.length ≤ (runBytes l).length := by
  rw [length_runBytes]
  have hsum := List.length_le_sum_of_one_le (l.map (fun d => pushLen d.2)) (fun n hn => by
    obtain ⟨d, -, rfl⟩ := List.mem_map.mp hn
    exact pushLen_pos d.2)
  rwa [List.length_map] at hsum

/-- The bytes of a run, summed over its walk. -/
lemma sum_recLens (ha : t.vals.Ok) (h : Linked t.vals l) :
    ((l.map (fun d => (d.1, lenWord d.2))).map
    (fun c => 12 + if c.2 = TOMB_LEN then 0 else c.2)).sum = (runBytes l).length := by
  rw [length_runBytes, List.map_map]
  refine congrArg _ (List.map_congr_left (fun d hd => ?_))
  have hfits := h.fits ha hd
  obtain ⟨off, value⟩ := d
  cases value with
  | none => rfl
  | some v => exact congrArg (12 + ·) (if_neg (hfits.2 v rfl).ne)

/-- What a run leaves is what its chain says. -/
lemma chainDelta_eq_liveFold (l : List (ℕ × Option Bytes)) :
    chainDelta l
    =
    ⟨(l.reverse.foldl liveFold ([], false)).2,
    (l.reverse.foldl liveFold ([], false)).1.map Prod.snd⟩ := by
  induction l with
  | nil => rfl
  | cons d l ih =>
      obtain ⟨off, value⟩ := d
      rw [List.reverse_cons, List.foldl_append, List.foldl_cons, List.foldl_nil]
      cases value with
      | none => rfl
      | some v =>
          rw [chainDelta, ih]
          simp [liveFold]

/-- The word at a record of a run. -/
lemma readWord_rec {pre post : Bytes} (h : ChunkFits d) {p : ℕ} (hp : p = pre.length) :
    readWord 8 (pre ++ (recBytes d ++ post)) p = some d.1 ∧
      readWord 4 (pre ++ (recBytes d ++ post)) (p + 8) = some (lenWord d.2) := by
  have hoff : d.1 < 256 ^ 8 := h.1.trans (by decide)
  have hlen : lenWord d.2 < 256 ^ 4 := (lenWord_lt h).trans_eq (by norm_num)
  refine ⟨?_, ?_⟩
  · rw [recBytes, List.append_assoc]
    exact readWord_append_mid hp hoff
  · have hshape : pre ++ (recBytes d ++ post)
        = (pre ++ leBytes 8 d.1) ++ (leBytes 4 (lenWord d.2) ++ (d.2.getD [] ++ post)) := by
      rw [recBytes]
      simp only [List.append_assoc]
    rw [hshape]
    exact readWord_append_mid (by rw [List.length_append, length_leBytes, hp]) hlen

/-- **The visible range of a run**: what is live stands at its end. -/
lemma visibleLoop_eq {v pre : Bytes} {live : List (ℕ × Bytes)} {tomb : Bool}
    (hfits : ∀ d ∈ cs, ChunkFits d)
    (hv : v = pre ++ ((live.map asChunk).flatMap recBytes ++ cs.flatMap recBytes)) :
    ∃ start, visibleLoop v SEE_ALL cs.length (pre.length + ((live.map asChunk).flatMap recBytes).length) pre.length tomb
        = some (start, v.length, (cs.foldl liveFold (live, tomb)).2) ∧
      ∃ pre', start = pre'.length ∧ v = pre' ++ ((cs.foldl liveFold (live, tomb)).1.map asChunk).flatMap recBytes := by
  induction cs generalizing pre live tomb with
  | nil =>
      rw [List.flatMap_nil, List.append_nil] at hv
      refine ⟨pre.length, ?_, pre, rfl, hv⟩
      rw [List.length_nil, visibleLoop, hv, List.length_append]
      rfl
  | cons d cs ih =>
      obtain ⟨hd, hrest⟩ := List.forall_mem_cons.mp hfits
      set p := pre.length + ((live.map asChunk).flatMap recBytes).length with hp
      have hshape : v = (pre ++ (live.map asChunk).flatMap recBytes) ++ (recBytes d ++ cs.flatMap recBytes) := by
        rw [hv, List.flatMap_cons]
        simp only [List.append_assoc]
      have hplen : p = (pre ++ (live.map asChunk).flatMap recBytes).length := by rw [List.length_append]
      obtain ⟨hoff, hword⟩ := readWord_rec hd hplen
      rw [← hshape] at hoff hword
      have hlen := length_recBytes d
      rw [List.length_cons, visibleLoop, hoff]
      simp only [Option.bind_eq_bind, Option.bind_some, if_neg (not_le.mpr hd.1), hword]
      obtain ⟨off, value⟩ := d
      cases value with
      | none =>
          have hrec : (pre ++ ((live.map asChunk).flatMap recBytes ++ recBytes (off, none))).length = p + 12 := by
            rw [← List.append_assoc, List.length_append, ← hplen, hlen]
            rfl
          rw [if_pos (show lenWord none = TOMB_LEN from rfl), ← hrec]
          have hv' : v = (pre ++ ((live.map asChunk).flatMap recBytes ++ recBytes (off, none))) ++
              ((([] : List (ℕ × Bytes)).map asChunk).flatMap recBytes ++ cs.flatMap recBytes) := by
            rw [hshape]
            simp
          exact ih hrest hv'
      | some x =>
          have hne : lenWord (some x) ≠ TOMB_LEN := (hd.2 x rfl).ne
          have hlive : ((live ++ [(off, x)]).map asChunk).flatMap recBytes
              = (live.map asChunk).flatMap recBytes ++ recBytes (off, some x) := by
            rw [List.map_append, List.flatMap_append]
            simp [asChunk]
          have hend : p + 12 + lenWord (some x)
            = pre.length + (((live ++ [(off, x)]).map asChunk).flatMap recBytes).length := by
            rw [hlive, List.length_append, hlen, hp, pushLen, lenWord, CHUNK_HDR]
            omega
          rw [if_neg hne, hend]
          refine ih hrest ?_
          rw [hlive, hshape]
          simp only [List.append_assoc]

/-- The values of a run's live range. -/
lemma runValues_eq {v pre : Bytes} {live : List (ℕ × Bytes)}
    (hfits : ∀ d ∈ live, ChunkFits (asChunk d))
    (hv : v = pre ++ (live.map asChunk).flatMap recBytes) :
    runValues v v.length pre.length = some (live.map Prod.snd) := by
  induction live generalizing pre with
  | nil =>
      rw [List.map_nil, List.flatMap_nil, List.append_nil] at hv
      rw [runValues, dif_neg (by rw [hv]; exact lt_irrefl _)]
      rfl
  | cons d live ih =>
      obtain ⟨hd, hfits⟩ := List.forall_mem_cons.mp hfits
      rw [List.map_cons, List.flatMap_cons] at hv
      obtain ⟨-, hword⟩ := readWord_rec hd rfl
      rw [← hv] at hword
      have hlen := length_recBytes (asChunk d)
      have hlt : pre.length < v.length := by
        rw [hv, List.length_append, List.length_append, hlen, asChunk, pushLen, CHUNK_HDR]
        omega
      have hend : pre.length + 12 + d.2.length = (pre ++ recBytes (asChunk d)).length := by
        rw [List.length_append, hlen, asChunk, pushLen, CHUNK_HDR]
        omega
      have hvalue : getRange v (pre.length + 12) (pre.length + 12 + d.2.length) = some d.2 := by
        have hshape : v = (pre ++ (leBytes 8 d.1 ++ leBytes 4 d.2.length)) ++
            (d.2 ++ (live.map asChunk).flatMap recBytes) := by
          rw [hv, recBytes]
          simp only [asChunk, lenWord, Option.getD_some, List.append_assoc]
        have hpos : pre.length + 12 = (pre ++ (leBytes 8 d.1 ++ leBytes 4 d.2.length)).length := by
          simp
        rw [hshape]
        exact getRange_append_mid hpos (by rw [hpos])
      have hrest := ih hfits (by rw [hv, List.append_assoc])
      rw [runValues, dif_pos hlt, hword]
      simp only [Option.bind_eq_bind, Option.bind_some, lenWord, asChunk, hvalue]
      rw [hend]
      simp only [hrest, Option.bind_some]
      rfl

/-- A live range is one value where one chunk is live. -/
lemma oneValue_eq {v pre : Bytes} {live : List (ℕ × Bytes)}
    (hfits : ∀ d ∈ live, ChunkFits (asChunk d))
    (hv : v = pre ++ (live.map asChunk).flatMap recBytes) :
    oneValue v pre.length v.length = some (live.length == 1) := by
  cases live with
  | nil =>
      rw [List.map_nil, List.flatMap_nil, List.append_nil] at hv
      rw [oneValue, if_neg (by rw [hv]; omega)]
      rfl
  | cons d live =>
      rw [List.map_cons, List.flatMap_cons] at hv
      obtain ⟨-, hword⟩ := readWord_rec
        (hfits d (List.mem_cons_self ..)) rfl
      rw [← hv] at hword
      have hlen := length_recBytes (asChunk d)
      have hvlen : v.length = pre.length + (12 + d.2.length + ((live.map asChunk).flatMap recBytes).length) := by
        rw [hv, List.length_append, List.length_append, hlen]
        rfl
      rw [oneValue, if_pos (by omega), hword, Option.map_some]
      refine congrArg some ?_
      rw [Bool.eq_iff_iff, beq_iff_eq, beq_iff_eq, hvlen]
      show pre.length + 12 + d.2.length = _ ↔ _
      cases live with
      | nil => simp; omega
      | cons e live =>
          have hmore := length_recBytes (asChunk e)
          rw [asChunk, pushLen, CHUNK_HDR] at hmore
          simp only [List.map_cons, List.flatMap_cons, List.length_append, List.length_cons]
          rw [asChunk, hmore]
          omega

end Runs

/-! ## What is read -/

/-- The record a seal writes of a key that some records wrote. -/
def sealRec (plan : SealPlan) (rs : List WalRecord) (k : Bytes) : SealRec :=
  (⟨k, liveValues rs k, decide (WalRecord.delete k ∈ rs)⟩,
    plan.putOne && !decide (WalRecord.delete k ∈ rs) && (liveValues rs k).length == 1)

/-- A key and its run, as a copy holds them. -/
def keyRun (k : Bytes) (l : List (ℕ × Option Bytes)) : Bytes :=
  k ++ (leBytes 4 l.length ++ (leBytes 4 (runBytes l).length ++ runBytes l))

/-- A copy of some entries of a table: each one's key and run at the places it names. -/
def Copied (ks : List Bytes) (chunks : List (ℕ × WalRecord)) (s : Snapshot) (os : List ℕ) : Prop :=
  s.ents.map SnapKey.frozen = os ∧ ∀ e ∈ s.ents, ∃ k, ks[e.frozen]? = some k ∧ e.len = k.length ∧
    e.frun = e.off + k.length ∧ (keyRun k (chainOf chunks k)).length < 2 ^ 32 ∧
    getRange s.arena e.off (e.off + (keyRun k (chainOf chunks k)).length)
    = some (keyRun k (chainOf chunks k))

/-- A copy of some entries of a table, of what its run left of each. -/
def CopiedOf (cs : List KeyChain) (s : Snapshot) (os : List ℕ) : Prop :=
  s.ents.map SnapKey.frozen = os ∧ ∀ e ∈ s.ents, ∃ c, cs[e.frozen]? = some c ∧ e.len = c.1.length ∧
    e.frun = e.off + c.1.length ∧ (keyRun c.1 c.2).length < 2 ^ 32 ∧
    getRange s.arena e.off (e.off + (keyRun c.1 c.2).length) = some (keyRun c.1 c.2)

section Reads

variable {t : HashedTable} {hashOf : Bytes → UInt64} {ks : List Bytes}
  {chunks : List (ℕ × WalRecord)} {plan : SealPlan} {i : ℕ} {k : Bytes} {e : MemEntry}

lemma Held.entry_of (h : t.Held hashOf ks chunks) (hi : ks[i]? = some k) :
    ∃ e, t.entries[i]? = some e ∧ t.keyOf e = some k ∧ e.klen = k.length ∧
      e.chainHead = newest (chainOf chunks k) := by
  have hlt : i < t.entries.length := by
    rw [h.entries.length]
    exact (List.getElem?_eq_some_iff.mp hi).1
  have hget := List.getElem?_eq_getElem hlt
  have hkey := h.keyOf i k hi
  have hhead := h.headAt hi
  have he := h.entries.entry i _ k hget hi
  rw [hget, Option.bind_some] at hkey
  rw [HashedTable.headAt, hget, Option.map_some, Option.some.injEq] at hhead
  exact ⟨_, hget, hkey, he.klen, hhead⟩

lemma chain_delta (chunks : List (ℕ × WalRecord)) (k : Bytes) :
    (chainDelta (chainOf chunks k)).vals = liveValues (chunks.map Prod.snd) k ∧
      (chainDelta (chainOf chunks k)).masks
      = decide (WalRecord.delete k ∈ chunks.map Prod.snd) := by
  rw [chainDelta_chainOf]
  refine ⟨vals_recordsDelta _ _, ?_⟩
  rw [Bool.eq_iff_iff, masks_recordsDelta, decide_eq_true_iff]

lemma length_of_mapM {α β : Type} {f : α → Option β} {l : List α} {m : List β}
    (h : l.mapM f = some m) : m.length = l.length := by
  induction l generalizing m with
  | nil =>
      rw [List.mapM_nil] at h
      cases h
      rfl
  | cons x l ih =>
      rw [List.mapM_cons, Option.bind_eq_bind, Option.bind_eq_some_iff] at h
      obtain ⟨y, -, h⟩ := h
      rw [Option.bind_eq_bind, Option.bind_eq_some_iff] at h
      obtain ⟨ys, hys, h⟩ := h
      cases h
      rw [List.length_cons, List.length_cons, ih hys]

/-- **The chain of a key** reads as its records leave it. -/
lemma chainEntry_eq (h : t.Held hashOf ks chunks) (hi : ks[i]? = some k) :
    chainEntry plan t i = some (sealRec plan (chunks.map Prod.snd) k) := by
  obtain ⟨e, he, hkey, -, -⟩ := Held.entry_of h hi
  have hold : ∀ c ∈ chunks, c.1 < SEE_ALL := by
    intro c hc
    have hmem : (c.1, c.2.value?) ∈ chainOf chunks c.2.key := by
      rw [chainOf, List.mem_reverse, List.mem_map]
      exact ⟨c, List.mem_filter.mpr ⟨hc, by simp⟩, rfl⟩
    exact ((h.stored.linked c.2.key).fits h.stored.arena hmem).1
  have h' : t.Held hashOf ks (chunks ++ []) := by
    rw [List.append_nil]
    exact h
  obtain ⟨offs, hlive, hvalues, -⟩ := h'.readsAt hold (fun c hc => absurd hc List.not_mem_nil) hi he
  have hlen : (liveValues (chunks.map Prod.snd) k).length = offs.length := length_of_mapM hvalues
  rw [chainEntry, he]
  simp only [Option.bind_eq_bind, Option.bind_some, hkey, hlive, hvalues, sealRec, hlen]

/-- **A key and its chain**, as a copy writes them. -/
lemma writeKeyRun_eq {l : List (ℕ × Option Bytes)} (ha : t.vals.Ok) (hkey : t.keyOf e = some k)
    (hhead : e.chainHead = newest l) (hlinked : Linked t.vals l) (hshort : l.length ≤ t.vals.tail) :
    t.writeKeyRun e = some (keyRun k l) := by
  have hfuel : l.length < t.vals.tail + 1 := Nat.lt_succ_of_le hshort
  rw [HashedTable.writeKeyRun, hkey]
  simp only [Option.bind_eq_bind, Option.bind_some, hhead,
    walkChain_eq ha hlinked hfuel, ← List.map_reverse,
    runRecords_eq hlinked (fun d hd => List.mem_reverse.mp hd), List.length_map,
    sum_recLens ha hlinked]
  rw [keyRun, runBytes, List.flatMap_def]

lemma length_keyRun (k : Bytes) (l : List (ℕ × Option Bytes)) :
    (keyRun k l).length = k.length + (8 + (runBytes l).length) := by
  rw [keyRun]
  simp only [List.length_append, length_leBytes]
  omega

lemma GrownEntry.keyOf {c : KeyChain} (h : GrownEntry t.keys t.vals e c) :
    t.keyOf e = some c.1 := by
  rw [HashedTable.keyOf, h.klen]
  exact h.key.1

/-- A run is its chain's. -/
lemma GrownEntry.runOf {c : KeyChain} (ha : t.vals.Ok) (h : GrownEntry t.keys t.vals e c) :
    t.runOf e = some (c.2.length, runBytes c.2) := by
  rw [HashedTable.runOf, h.chainHead, walkChain_eq ha h.linked (Nat.lt_succ_of_le h.short)]
  simp only [Option.bind_eq_bind, Option.bind_some, ← List.map_reverse,
    runRecords_eq h.linked (fun d hd => List.mem_reverse.mp hd), List.length_map]
  rw [runBytes, List.flatMap_def]

/-- One entry copied. -/
lemma copyEntry_ok {cs : List KeyChain} {c : KeyChain} {s : Snapshot} {os : List ℕ} {bytes : ℕ}
    (h : t.Grown cs) (hs : CopiedOf cs s os) (hi : cs[i]? = some c)
    (hroom : s.arena.length + (keyRun c.1 c.2).length ≤ bytes) (hsmall : bytes < 2 ^ 32) :
    ∃ s', t.copyEntry bytes s i = some s' ∧ CopiedOf cs s' (os ++ [i]) ∧
      s'.arena.length = s.arena.length + (keyRun c.1 c.2).length := by
  have hlt : i < t.entries.length := by
    rw [h.length]
    exact (List.getElem?_eq_some_iff.mp hi).1
  have he := List.getElem?_eq_getElem hlt
  have hentry := h.entry i _ c he hi
  set e := t.entries[i] with hedef
  refine ⟨⟨s.arena ++ keyRun c.1 c.2,
    s.ents ++ [⟨s.arena.length, e.klen, i, s.arena.length + e.klen⟩]⟩,
    ?_, ⟨?_, fun x hx => ?_⟩, List.length_append⟩
  · rw [HashedTable.copyEntry, he]
    simp only [Option.bind_eq_bind, Option.bind_some,
      writeKeyRun_eq h.vals hentry.keyOf hentry.chainHead hentry.linked hentry.short]
    exact if_pos hroom
  · rw [List.map_append, hs.1]
    rfl
  · rcases List.mem_append.mp hx with hx | hx
    · obtain ⟨c', h1, h2, h3, h4, h5⟩ := hs.2 x hx
      exact ⟨c', h1, h2, h3, h4, getRange_append h5⟩
    · rw [List.mem_singleton.mp hx]
      refine ⟨c, hi, hentry.klen, by rw [hentry.klen], by omega, ?_⟩
      have hmid := @getRange_append_mid _ s.arena (keyRun c.1 c.2) [] _ _ rfl rfl
      rwa [List.append_nil] at hmid

/-- The entries copied, one after another. -/
lemma copyEntries_ok {cs : List KeyChain} {s : Snapshot} {os done : List ℕ} {bytes : ℕ}
    (h : t.Grown cs) (hs : CopiedOf cs s done) (hos : ∀ i ∈ os, i < cs.length)
    (hroom : s.arena.length +
    (os.map (fun i => (keyRun (cs.getD i ([], [])).1 (cs.getD i ([], [])).2).length)).sum ≤ bytes)
    (hsmall : bytes < 2 ^ 32) :
    ∃ s', os.foldlM (t.copyEntry bytes) s = some s' ∧ CopiedOf cs s' (done ++ os) ∧
    s'.arena.length ≤ bytes := by
  induction os generalizing s done with
  | nil => exact ⟨s, rfl, by rwa [List.append_nil], (Nat.le_add_right _ _).trans hroom⟩
  | cons i os ih =>
      obtain ⟨hi, hos⟩ := List.forall_mem_cons.mp hos
      have hget : cs[i]? = some (cs.getD i ([], [])) := by
        rw [List.getElem?_eq_getElem hi, List.getD_eq_getElem _ _ hi]
      rw [List.map_cons, List.sum_cons] at hroom
      obtain ⟨s₁, hstep, hs₁, hlen⟩ := copyEntry_ok h hs hget (by omega) hsmall
      obtain ⟨s', hfold, hs', hle⟩ := ih hs₁ hos (by rw [hlen]; omega)
      refine ⟨s', ?_, ?_, hle⟩
      · rw [List.foldlM_cons, hstep]
        exact hfold
      · rw [List.append_assoc] at hs'
        exact hs'

/-- **The copy of any table** the arena can address does not outgrow what was reserved for it. -/
lemma HashedTable.Grown.fromFrozen {cs : List KeyChain} {order : List ℕ} (h : t.Grown cs)
    (hperm : order.Perm (List.range cs.length)) :
    t.fromFrozen order = some none ∨ ∃ s, t.fromFrozen order = some (some s) ∧ CopiedOf cs s order ∧
      s.arena.length ≤ t.keys.used + t.vals.used + 8 * order.length ∧
      t.keys.used + t.vals.used + 8 * order.length < 2 ^ 32 := by
  rw [HashedTable.fromFrozen]
  by_cases hbig : 2 ^ 32 - 1 < t.keys.used + t.vals.used + 8 * order.length
  · exact Or.inl (if_pos hbig)
  · right
    have hsum : (order.map (fun i => (keyRun (cs.getD i ([], [])).1 (cs.getD i ([], [])).2).length)).sum
        ≤ t.keys.used + t.vals.used + 8 * order.length := by
      have hall : (order.map (fun i => (keyRun (cs.getD i ([], [])).1 (cs.getD i ([], [])).2).length)).sum
          = (cs.map (fun c => (keyRun c.1 c.2).length)).sum := by
        have hmap : (List.range cs.length).map (fun i => cs.getD i ([], [])) = cs := map_getD_range cs ([], [])
        conv_rhs => rw [← hmap, List.map_map]
        exact (hperm.map _).sum_eq
      rw [hall]
      simp only [length_keyRun, length_runBytes]
      rw [List.sum_map_add, List.sum_map_add, hperm.length_eq]
      have hkeys := h.keyBytes
      have hchunks := h.chunkBytes
      simp only [chainBytes] at hchunks
      simp only [List.map_const', List.sum_replicate, List.length_range, smul_eq_mul]
      omega
    have hempty : CopiedOf cs ⟨[], []⟩ [] := ⟨rfl, fun e he => absurd he List.not_mem_nil⟩
    obtain ⟨s, hfold, hs, hle⟩ := copyEntries_ok h hempty
      (fun i hi => List.mem_range.mp (hperm.mem_iff.mp hi)) (by simpa using hsum) (by omega)
    refine ⟨s, ?_, hs, hle, by omega⟩
    rw [if_neg hbig, hfold]
    rfl

/-- The chunks of all keys together are the chunks. -/
lemma sum_chains (hnodup : ks.Nodup) (hknown : ∀ c ∈ chunks, c.2.key ∈ ks) :
    (ks.map (fun k => (runBytes (chainOf chunks k)).length)).sum
    = (chunks.map (fun c => pushLen c.2.value?)).sum := by
  have hone : ∀ (ks : List Bytes) (a : Bytes) (n : ℕ), ks.Nodup → a ∈ ks →
      (ks.map (fun k => if a = k then n else 0)).sum = n := by
    intro ks a n hks ha
    induction ks with
    | nil => exact absurd ha List.not_mem_nil
    | cons x xs ih =>
        obtain ⟨hx, hxs⟩ := List.nodup_cons.mp hks
        rw [List.map_cons, List.sum_cons]
        by_cases hax : a = x
        · have hzero : ∀ k ∈ xs, (if a = k then n else 0) = 0 :=
            fun k hk => if_neg (fun heq => hx (by rwa [← hax, heq]))
          rw [if_pos hax, List.map_congr_left hzero]
          simp
        · rw [if_neg hax, ih hxs ((List.mem_cons.mp ha).resolve_left hax), zero_add]
  induction chunks using List.reverseRecOn with
  | nil =>
      have hzero : ∀ k ∈ ks, (runBytes (chainOf [] k)).length = 0 := fun k _ => rfl
      rw [List.map_congr_left hzero]
      simp
  | append_singleton chunks c ih =>
      have hstep : ∀ k ∈ ks, (runBytes (chainOf (chunks ++ [c]) k)).length
          = (runBytes (chainOf chunks k)).length + if c.2.key = k then pushLen c.2.value? else 0 := by
        intro k _
        by_cases hk : c.2.key = k
        · rw [if_pos hk, chainOf_snoc_self hk, length_runBytes, length_runBytes, List.map_cons, List.sum_cons]
          exact Nat.add_comm _ _
        · rw [if_neg hk, chainOf_snoc_of_ne hk, add_zero]
      rw [List.map_congr_left hstep, List.sum_map_add, ih (fun d hd => hknown d (List.mem_append_left _ hd)),
        hone ks _ _ hnodup (hknown c (by simp)), List.map_append, List.sum_append]
      simp

/-- What a table holds is what its run left. -/
lemma HashedTable.Held.grown (h : t.Held hashOf ks chunks) :
    t.Grown (ks.map (fun k => (k, chainOf chunks k))) := by
  refine ⟨h.keys,
    h.stored.arena, by rw [List.length_map]; exact h.entries.length, fun i e c he hc => ?_, ?_, ?_⟩
  · rw [List.getElem?_map, Option.map_eq_some_iff] at hc
    obtain ⟨k, hk, rfl⟩ := hc
    have hentry := h.entries.entry i e k he hk
    exact ⟨hentry.klen, hentry.key, hentry.head, h.stored.linked k, h.stored.length_chainOf_le⟩
  · rw [List.map_map]
    exact h.keyBytes
  · have hknown : ∀ c ∈ chunks, c.2.key ∈ ks := fun c hc => (h.known _).mpr ⟨c, hc, rfl⟩
    have hsum := sum_chains h.nodup hknown
    simp only [length_runBytes] at hsum
    rw [List.map_map, h.stored.used, ← hsum]
    exact le_refl _

/-- **The copy** of a table the arena can address. -/
lemma fromFrozen_ok {order : List ℕ} (h : t.Held hashOf ks chunks)
    (hperm : order.Perm (List.range ks.length)) : t.fromFrozen order = some none ∨
      ∃ s, t.fromFrozen order = some (some s) ∧ Copied ks chunks s order := by
  rcases @HashedTable.Grown.fromFrozen _ _ order h.grown (by rwa [List.length_map]) with hnone | ⟨s,
    hsome, hs, -⟩
  · exact Or.inl hnone
  · refine Or.inr ⟨s, hsome, hs.1, fun x hx => ?_⟩
    obtain ⟨c, hc, hrest⟩ := hs.2 x hx
    rw [List.getElem?_map, Option.map_eq_some_iff] at hc
    obtain ⟨k, hk, rfl⟩ := hc
    exact ⟨k, hk, hrest⟩

/-- **A key and its run in a copy** read back. -/
lemma Snapshot.reads {s : Snapshot} {x : SnapKey} {l : List (ℕ × Option Bytes)}
    (hlen : x.len = k.length) (hfrun : x.frun = x.off + k.length)
    (hfits : (keyRun k l).length < 2 ^ 32)
    (hrange : getRange s.arena x.off (x.off + (keyRun k l).length) = some (keyRun k l)) :
    s.keyOf x = some k ∧ s.run x.frun = some (l.length, runBytes l) := by
  have hfits' : l.length < 2 ^ 32 ∧ (runBytes l).length < 2 ^ 32 := by
    have hle := length_le_runBytes l
    rw [length_keyRun] at hfits
    exact ⟨by omega, by omega⟩
  rw [keyRun] at hrange
  obtain ⟨hkey, hrest⟩ := getRange_split hrange
  rw [← List.append_assoc (leBytes 4 l.length)] at hrest
  obtain ⟨hhead, hbody⟩ := getRange_split hrest
  have hwords : (leBytes 4 l.length ++ leBytes 4 (runBytes l).length).length = 8 := by simp
  rw [hwords] at hhead hbody
  have hn : leNat ((leBytes 4 l.length ++ leBytes 4 (runBytes l).length).take 4) = l.length := by
    rw [List.take_left' (length_leBytes _ _), leNat_leBytes (hfits'.1.trans_eq (by norm_num))]
  have hb : leNat ((leBytes 4 l.length ++ leBytes 4 (runBytes l).length).drop 4)
    = (runBytes l).length := by
    rw [List.drop_left' (length_leBytes _ _), leNat_leBytes (hfits'.2.trans_eq (by norm_num))]
  have hend :
      x.off + (k ++ (leBytes 4 l.length ++ leBytes 4 (runBytes l).length ++ runBytes l)).length
      = x.off + k.length + 8 + (runBytes l).length := by
    simp only [List.length_append, length_leBytes]
    omega
  rw [hend] at hbody
  refine ⟨?_, ?_⟩
  · rw [Snapshot.keyOf, Snapshot.slice, hlen]
    split_ifs with hzero
    · rw [List.length_eq_zero_iff.mp hzero]
    · exact hkey
  · rw [Snapshot.run, hfrun]
    have hslice : s.slice (x.off + k.length) 8
      = some (leBytes 4 l.length ++ leBytes 4 (runBytes l).length) := by
      rw [Snapshot.slice, if_neg (by decide)]
      exact hhead
    simp only [Option.bind_eq_bind, hslice, Option.bind_some, hn, hb]
    have hslice' : s.slice (x.off + k.length + 8) (runBytes l).length = some (runBytes l) := by
      rw [Snapshot.slice]
      split_ifs with hzero
      · rw [List.length_eq_zero_iff.mp hzero]
      · exact hbody
    rw [hslice']
    rfl

/-- A snapshot whose entries, in some order, read as the table's keys and chains. -/
def Streams (ks : List Bytes) (chunks : List (ℕ × WalRecord)) (s : Snapshot) (os : List ℕ) : Prop :=
  s.ents.map SnapKey.frozen = os ∧ ∀ x ∈ s.ents, ∃ k, ks[x.frozen]? = some k ∧
    s.keyOf x = some k ∧
    s.run x.frun = some ((chainOf chunks k).length, runBytes (chainOf chunks k))

lemma Copied.streams {s : Snapshot} {os : List ℕ} (hs : Copied ks chunks s os) :
    Streams ks chunks s os := by
  refine ⟨hs.1, fun x hx => ?_⟩
  obtain ⟨k, hi, hlen, hfrun, hfits, hrange⟩ := hs.2 x hx
  exact ⟨k, hi, Snapshot.reads hlen hfrun hfits hrange⟩

/-- **The run of a key** reads as its chain does. -/
lemma runEntry_eq {s : Snapshot} {os : List ℕ} (h : t.Held hashOf ks chunks)
    (hs : Streams ks chunks s os) {x : SnapKey} (hx : x ∈ s.ents) :
    ∃ k, ks[x.frozen]? = some k ∧ s.keyOf x = some k ∧
      runEntry plan s x = some (sealRec plan (chunks.map Prod.snd) k) := by
  obtain ⟨k, hi, hkeyOf, hrun⟩ := hs.2 x hx
  set l := chainOf chunks k with hl
  have hchunks : ∀ d ∈ l.reverse, ChunkFits d := fun d hd =>
    (h.stored.linked k).fits h.stored.arena (List.mem_reverse.mp hd)
  obtain ⟨start, hvisible, pre, rfl, hv⟩ :=
    @visibleLoop_eq _ (runBytes l) [] [] false hchunks rfl
  rw [List.length_reverse] at hvisible
  have hdelta := chainDelta_eq_liveFold l
  obtain ⟨hvals, hmasks⟩ := chain_delta chunks k
  rw [← hl, hdelta] at hvals hmasks
  simp only at hvals hmasks
  have hlive : ∀ d ∈ (l.reverse.foldl liveFold ([], false)).1, ChunkFits (asChunk d) := by
    -- a live value is a chunk of the chain
    have hfold : ∀ (cs : List (ℕ × Option Bytes)) (st : List (ℕ × Bytes) × Bool), (∀ d ∈ cs, ChunkFits d) →
        (∀ d ∈ st.1, ChunkFits (asChunk d)) → ∀ d ∈ (cs.foldl liveFold st).1, ChunkFits (asChunk d) := by
      intro cs
      induction cs with
      | nil => intro st _ hst; exact hst
      | cons c cs ih =>
          intro st hcs hst
          obtain ⟨hc, hcs⟩ := List.forall_mem_cons.mp hcs
          refine ih _ hcs (fun d hd => ?_)
          obtain ⟨off, value⟩ := c
          cases value with
          | none => exact absurd hd List.not_mem_nil
          | some v =>
              rcases List.mem_append.mp hd with hd | hd
              · exact hst d hd
              · rw [List.mem_singleton.mp hd]
                exact hc
    exact hfold _ _ hchunks (fun d hd => absurd hd List.not_mem_nil)
  refine ⟨k, hi, hkeyOf, ?_⟩
  rw [runEntry, hrun]
  simp only [Option.bind_eq_bind, Option.bind_some, runVisible]
  rw [show visibleLoop (runBytes l) SEE_ALL l.length 0 0 false = _ from hvisible]
  simp only [Option.bind_some, oneValue_eq hlive hv, hkeyOf, runValues_eq hlive hv, hvals, hmasks]
  have hcount : ((l.reverse.foldl liveFold ([], false)).1.length == 1)
    = ((liveValues (chunks.map Prod.snd) k).length == 1) := by
    rw [← hvals, List.length_map]
  rw [hcount, sealRec]
  split_ifs with hone
  · rw [hone, Bool.true_and]
  · simp only [Bool.not_eq_true] at hone
    rw [hone, Bool.false_and]

section Kept

variable (f : FrozenSnap t)

/-- The key of an entry of a snapshot kept on the table. -/
lemma FrozenSnap.key_of (h : t.Held hashOf ks chunks) {x : SnapKey} (hx : x ∈ f.snap.ents) :
    ∃ k, ks[x.frozen]? = some k ∧ f.snap.keyOf x = some k := by
  have hlt : x.frozen < ks.length := by
    rw [← h.entries.length]
    exact List.mem_range.mp (f.once.mem_iff.mp (List.mem_map_of_mem hx))
  have hget := List.getElem?_eq_getElem hlt
  exact ⟨_, hget, (f.keys x hx).trans (h.keyOf _ _ hget)⟩

/-- **Its order is the table's**: every entry once, their keys ascending. -/
lemma FrozenSnap.order (h : t.Held hashOf ks chunks) :
    (f.snap.ents.map SnapKey.frozen).Perm (List.range ks.length) ∧
      (f.snap.ents.map SnapKey.frozen).map (fun i => ks.getD i []) =
        slotsInKeyOrder (chunks.map Prod.snd) := by
  have hperm : (f.snap.ents.map SnapKey.frozen).Perm (List.range ks.length) := by
    rw [← h.entries.length]
    exact f.once
  refine ⟨hperm, map_order h hperm ?_⟩
  rw [List.map_map, List.pairwise_map]
  refine f.sorted.imp_of_mem (fun {x y} hx hy hle => ?_)
  obtain ⟨k, hk, hkx⟩ := f.key_of h hx
  obtain ⟨l, hl, hly⟩ := f.key_of h hy
  simp only [Function.comp, List.getD_eq_getElem?_getD, hk, hl, Option.getD_some]
  exact hle k hkx l hly

/-- **A copy kept on the table** streams its keys and chains. -/
lemma FrozenSnap.streams (h : t.Held hashOf ks chunks) (hcopied : f.copied = true) :
    Streams ks chunks f.snap (f.snap.ents.map SnapKey.frozen) := by
  refine ⟨rfl, fun x hx => ?_⟩
  obtain ⟨k, hk, hkey⟩ := f.key_of h hx
  obtain ⟨e, he, -, -, -⟩ := Held.entry_of h hk
  have hentry := h.grown.entry x.frozen e (k, chainOf chunks k) he (by
    rw [List.getElem?_map, hk]
    rfl)
  refine ⟨k, hk, hkey, ?_⟩
  rw [f.runs hcopied x hx, he]
  exact hentry.runOf h.stored.arena

end Kept

end Reads

/-! ## The pieces of a table -/

/-- Ranges that tile the keys from `lo` on, the last one unbounded. -/
def Tiles : Bytes → List Fence → Prop
  | _, [] => False
  | lo, [f] => f = (lo, none)
  | lo, f :: g :: fs => ∃ hi, f = (lo, some hi) ∧ Tiles hi (g :: fs)

/-- Whether a record lies below a range's end. -/
def belowEnd (hi : Option Bytes) (r : SealRec) : Bool := !hi.any (fun h => h ≤ r.1.key)

/-- Records cut into the ranges from the `ri`-th on, the empty ones left out. -/
def piecesOf : ℕ → List Fence → List SealRec → List (ℕ × Fence × List SealRec)
  | _, [], _ => []
  | ri, f :: fs, es =>
      let mine := es.takeWhile (belowEnd f.2)
      let rest := es.dropWhile (belowEnd f.2)
      if mine.isEmpty then piecesOf (ri + 1) fs rest else (ri, f, mine) :: piecesOf (ri + 1) fs rest

/-- The records of a range written as its piece. -/
def writeSealed (env : MergeEnv) (plan : SealPlan) (p : ℕ × Fence × List SealRec) :
    Except String SealedPiece := do
  let s ← p.2.2.foldlM (putRecord env) (.create env.opts, false)
  finishSealed env plan (plan.firstId + p.1) p.2.1 s

section Pieces

variable {ρ : Type} {env : MergeEnv} {plan : SealPlan} {read : ρ → Option SealRec}
  {keyAt : ρ → Option Bytes} {f : ρ → SealRec} {recs : List ρ} {hi : Option Bytes}

lemma writeRecords_eq (hread : ∀ r ∈ recs, read r = some (f r)) (s : SealWriter) :
    writeRecords env read recs s = some ((recs.map f).foldlM (putRecord env) s) := by
  induction recs generalizing s with
  | nil => rfl
  | cons r recs ih =>
      obtain ⟨hr, hrecs⟩ := List.forall_mem_cons.mp hread
      rw [writeRecords, hr, List.map_cons, List.foldlM_cons]
      simp only [Option.bind_eq_bind, Option.bind_some]
      cases putRecord env s (f r) with
      | error msg => rfl
      | ok s' => exact ih hrecs s'

/-- Records cut at a range's end, by their keys. -/
lemma cutRange_eq (hkey : ∀ r ∈ recs, keyAt r = some (f r).1.key) :
    ∃ mine rest, cutRange keyAt hi recs = some (mine, rest) ∧ recs = mine ++ rest ∧
      mine.map f = (recs.map f).takeWhile (belowEnd hi) ∧
      rest.map f = (recs.map f).dropWhile (belowEnd hi) := by
  induction recs with
  | nil => exact ⟨[], [], rfl, rfl, rfl, rfl⟩
  | cons r recs ih =>
      obtain ⟨hr, hrecs⟩ := List.forall_mem_cons.mp hkey
      rw [cutRange, hr]
      simp only [Option.bind_eq_bind, Option.bind_some, List.map_cons]
      by_cases hcut : hi.any (fun h => h ≤ (f r).1.key) = true
      · have hbelow : ¬ belowEnd hi (f r) = true := by simp [belowEnd, hcut]
        exact ⟨[], r :: recs, if_pos hcut, rfl, (List.takeWhile_cons_of_neg hbelow).symm,
          (List.dropWhile_cons_of_neg hbelow).symm⟩
      · have hbelow : belowEnd hi (f r) = true := by simp [belowEnd, Bool.eq_false_of_not_eq_true hcut]
        obtain ⟨mine, rest, hrange, hsplit, hmine, hrest⟩ := ih hrecs
        refine ⟨r :: mine, rest, ?_, by rw [hsplit]; rfl, ?_, ?_⟩
        · rw [if_neg hcut, hrange]
          rfl
        · rw [List.takeWhile_cons_of_pos hbelow, List.map_cons, hmine]
        · rw [List.dropWhile_cons_of_pos hbelow, hrest]

/-- **The ranges write the pieces of what is read.** -/
lemma sealRanges_eq {fs : List Fence} (hread : ∀ r ∈ recs, read r = some (f r))
    (hkey : ∀ r ∈ recs, keyAt r = some (f r).1.key) (ri : ℕ) :
    sealRanges env plan read keyAt ri fs recs
    = some ((piecesOf ri fs (recs.map f)).mapM (writeSealed env plan)) := by
  induction fs generalizing recs ri with
  | nil => rfl
  | cons g fs ih =>
      obtain ⟨mine, rest, hcut, hsplit, hmine, hrest⟩ := cutRange_eq hkey
      have hsub : ∀ r ∈ mine, r ∈ recs := fun r hr => hsplit ▸ List.mem_append_left _ hr
      have hsub' : ∀ r ∈ rest, r ∈ recs := fun r hr => hsplit ▸ List.mem_append_right _ hr
      have htail := ih (fun r hr => hread r (hsub' r hr)) (fun r hr => hkey r (hsub' r hr)) (ri + 1)
      rw [sealRanges, hcut, piecesOf, ← hmine, ← hrest]
      simp only [Option.bind_eq_bind, Option.bind_some, List.isEmpty_map]
      by_cases hempty : mine.isEmpty = true
      · rw [if_pos hempty, if_pos hempty]
        exact htail
      · rw [if_neg hempty, if_neg hempty, writeRecords_eq (fun r hr => hread r (hsub r hr)), List.mapM_cons, htail]
        simp only [Option.bind_some, writeSealed]
        cases (mine.map f).foldlM (putRecord env) ((.create env.opts, false) : SealWriter) with
        | error e => rfl
        | ok s =>
            simp only [bind, Except.bind]
            cases finishSealed env plan (plan.firstId + ri) g s with
            | error e => rfl
            | ok piece =>
                simp only
                cases (piecesOf (ri + 1) fs (rest.map f)).mapM (writeSealed env plan) with
                | error e => rfl
                | ok ps => rfl

/-- **The pieces of ascending records**: every record in one, every piece inside its range and none
empty. -/
lemma piecesOf_spec {fs : List Fence} {lo : Bytes} {es : List SealRec} (htiles : Tiles lo fs)
    (hsorted : (es.map (fun r => r.1.key)).Pairwise (· < ·)) (hlo : ∀ r ∈ es, lo ≤ r.1.key)
    (ri : ℕ) : (piecesOf ri fs es).flatMap (fun p => p.2.2) = es ∧
      ∀ p ∈ piecesOf ri fs es, ri ≤ p.1 ∧ fs[p.1 - ri]? = some p.2.1 ∧ p.2.2 ≠ [] ∧
        ∀ r ∈ p.2.2, p.2.1.Holds r.1.key := by
  induction fs generalizing es lo ri with
  | nil => exact absurd htiles id
  | cons g fs ih =>
      set mine := es.takeWhile (belowEnd g.2) with hmine
      set rest := es.dropWhile (belowEnd g.2) with hrest
      have hsplit : mine ++ rest = es := List.takeWhile_append_dropWhile
      have hglo : g.1 = lo := by
        cases fs with
        | nil => rw [show g = (lo, none) from htiles]
        | cons g' fs =>
            obtain ⟨h, hg, -⟩ := htiles
            rw [hg]
      have hin : ∀ r ∈ mine, g.Holds r.1.key := by
        intro r hr
        refine ⟨hglo ▸ hlo r (hsplit ▸ List.mem_append_left _ hr), fun h hh => ?_⟩
        have hbelow : belowEnd g.2 r = true := List.all_eq_true.mp List.all_takeWhile r hr
        by_contra hle
        rw [belowEnd, Bool.not_eq_true', Option.any_eq_false] at hbelow
        exact absurd (hbelow h hh) (by simpa using hle)
      -- what is behind the cut, and what the ranges behind this one make of it
      have htail : (piecesOf (ri + 1) fs rest).flatMap (fun p => p.2.2) = rest ∧
          ∀ p ∈ piecesOf (ri + 1) fs rest, ri + 1 ≤ p.1 ∧ fs[p.1 - (ri + 1)]? = some p.2.1 ∧
            p.2.2 ≠ [] ∧ ∀ r ∈ p.2.2, p.2.1.Holds r.1.key := by
        cases fs with
        | nil =>
            have hall : ∀ r ∈ es, belowEnd g.2 r = true := by
              rw [show g = (lo, none) from htiles]
              exact fun r _ => rfl
            have hnone : rest = [] := by
              rw [hrest, List.dropWhile_eq_nil_iff]
              exact hall
            rw [hnone]
            exact ⟨rfl, fun p hp => absurd hp List.not_mem_nil⟩
        | cons g' fs =>
            obtain ⟨h, hg, htiles'⟩ := htiles
            have hbehind : (rest.map (fun r => r.1.key)).Pairwise (· < ·) :=
              hsorted.sublist ((List.dropWhile_suffix _).sublist.map _)
            refine ih htiles' hbehind (fun r hr => ?_) (ri + 1)
            cases hcons : rest with
            | nil =>
                rw [hcons] at hr
                exact absurd hr List.not_mem_nil
            | cons r₀ rest' =>
                have hnot := List.head?_dropWhile_not (belowEnd g.2) es
                rw [← hrest, hcons, List.head?_cons] at hnot
                simp only [belowEnd, hg, Option.any_some, Bool.not_eq_false'] at hnot
                have hle : h ≤ r₀.1.key := of_decide_eq_true hnot
                rw [hcons] at hr
                rw [hcons, List.map_cons, List.pairwise_cons] at hbehind
                rcases List.mem_cons.mp hr with rfl | hr
                · exact hle
                · exact hle.trans (hbehind.1 _ (List.mem_map_of_mem hr)).le
      obtain ⟨hflat, hall⟩ := htail
      have hall' : ∀ p ∈ piecesOf (ri + 1) fs rest, ri ≤ p.1 ∧ (g :: fs)[p.1 - ri]? = some p.2.1 ∧
          p.2.2 ≠ [] ∧ ∀ r ∈ p.2.2, p.2.1.Holds r.1.key := by
        intro p hp
        obtain ⟨h1, h2, h3⟩ := hall p hp
        refine ⟨by omega, ?_, h3⟩
        rw [show p.1 - ri = (p.1 - (ri + 1)) + 1 by omega, List.getElem?_cons_succ]
        exact h2
      rw [piecesOf, ← hmine, ← hrest]
      by_cases hempty : mine = []
      · rw [if_pos (List.isEmpty_iff.mpr hempty)]
        refine ⟨?_, hall'⟩
        rw [hflat, ← hsplit, hempty, List.nil_append]
      · rw [if_neg (fun h => hempty (List.isEmpty_iff.mp h))]
        refine ⟨?_, fun p hp => ?_⟩
        · rw [List.flatMap_cons, hflat]
          exact hsplit
        · rcases List.mem_cons.mp hp with rfl | hp
          · exact ⟨le_refl _, by rw [Nat.sub_self]; rfl, hempty, hin⟩
          · exact hall' p hp

end Pieces

/-- The records of a seal, in the order of their keys. -/
def sealRecs (plan : SealPlan) (rs : List WalRecord) : List SealRec :=
  (slotsInKeyOrder rs).map (sealRec plan rs)

lemma mem_slotsInKeyOrder {rs : List WalRecord} {k : Bytes} : k ∈ slotsInKeyOrder rs ↔
    ∃ r ∈ rs, r.key = k := by
  rw [slotsInKeyOrder, List.mem_insertionSort, List.mem_dedup, List.mem_map]

lemma pairwise_slotsInKeyOrder (rs : List WalRecord) : (slotsInKeyOrder rs).Pairwise (· < ·) := by
  have hle : (slotsInKeyOrder rs).Pairwise (· ≤ ·) := List.pairwise_insertionSort _ _
  have hne : (slotsInKeyOrder rs).Pairwise (· ≠ ·) :=
    (List.perm_insertionSort _ _).nodup_iff.mpr (List.nodup_dedup _)
  exact hle.imp₂ (fun _ _ h1 h2 => lt_of_le_of_ne h1 h2) hne

/-- The pieces a seal writes of what some records wrote. -/
def SealPlan.pieces (plan : SealPlan) (rs : List WalRecord) : List (ℕ × Fence × List SealRec) :=
  piecesOf 0 plan.ranges (sealRecs plan rs)

section Job

variable {t : HashedTable} {hashOf : Bytes → UInt64} {ks : List Bytes}
  {chunks : List (ℕ × WalRecord)} {order : List ℕ}

/-- The records of entries in key order. -/
lemma map_sealRec (plan : SealPlan)
    (hmap : order.map (fun i => ks.getD i []) = slotsInKeyOrder (chunks.map Prod.snd)) :
    order.map (fun i => sealRec plan (chunks.map Prod.snd) (ks.getD i [])) =
      sealRecs plan (chunks.map Prod.snd) := by
  rw [sealRecs, ← hmap, List.map_map]
  rfl

/-- The pieces read off the chains. -/
lemma sealChains_eq (h : t.Held hashOf ks chunks) (env : MergeEnv) (plan : SealPlan)
    (hperm : order.Perm (List.range ks.length))
    (hmap : order.map (fun i => ks.getD i []) = slotsInKeyOrder (chunks.map Prod.snd)) :
    sealRanges env plan (chainEntry plan t)
      (fun i => t.entries[i]?.bind t.keyOf) 0 plan.ranges order
      = some ((plan.pieces (chunks.map Prod.snd)).mapM (writeSealed env plan)) := by
  have hget : ∀ i ∈ order, ks[i]? = some (ks.getD i []) := by
    intro i hi
    have hlt := List.mem_range.mp (hperm.mem_iff.mp hi)
    rw [List.getElem?_eq_getElem hlt, List.getD_eq_getElem _ _ hlt]
  rw [sealRanges_eq (f := fun i => sealRec plan (chunks.map Prod.snd) (ks.getD i []))
    (fun i hi => chainEntry_eq h (hget i hi)) (fun i hi => h.keyOf i _ (hget i hi)),
    map_sealRec plan hmap]
  rfl

/-- The pieces read off a copy. -/
lemma sealStream_eq (h : t.Held hashOf ks chunks) (env : MergeEnv)
    (plan : SealPlan) {s : Snapshot} (hs : Streams ks chunks s order)
    (hmap : order.map (fun i => ks.getD i []) = slotsInKeyOrder (chunks.map Prod.snd)) :
    sealRanges env plan (runEntry plan s) s.keyOf 0 plan.ranges s.ents
      = some ((plan.pieces (chunks.map Prod.snd)).mapM (writeSealed env plan)) := by
  let f : ℕ → SealRec := fun i => sealRec plan (chunks.map Prod.snd) (ks.getD i [])
  have hread : ∀ x ∈ s.ents, runEntry plan s x = some (f x.frozen) ∧
      s.keyOf x = some (f x.frozen).1.key := by
    intro x hx
    obtain ⟨k, hi, hkey, hrun⟩ := runEntry_eq h hs hx
    have hk : ks.getD x.frozen [] = k := by
      rw [List.getD_eq_getElem?_getD, hi]
      rfl
    simp only [f, hk]
    exact ⟨hrun, hkey⟩
  have hents : s.ents.map (fun x => f x.frozen) = order.map f := by
    rw [← hs.1, List.map_map]
    rfl
  rw [sealRanges_eq (f := fun x => f x.frozen) (fun x hx => (hread x hx).1)
    (fun x hx => (hread x hx).2), hents, map_sealRec plan hmap]
  rfl

/-- The order of the job, off a snapshot on the table or sorted. -/
lemma SealCopies.order_ok (c : SealCopies t) (h : t.Held hashOf ks chunks) :
    ∃ order, c.order = some order ∧ order.Perm (List.range ks.length) ∧
      order.map (fun i => ks.getD i []) = slotsInKeyOrder (chunks.map Prod.snd) := by
  rw [SealCopies.order]
  cases c.kept with
  | none => exact slotsInKeyOrder_spec h
  | some f => exact ⟨_, rfl, f.order h⟩

/-- **Any copy the job comes by** streams the table in its keys' order. -/
lemma SealCopies.copyOf_ok (c : SealCopies t) (h : t.Held hashOf ks chunks)
    (hperm : order.Perm (List.range ks.length))
    (hmap : order.map (fun i => ks.getD i []) = slotsInKeyOrder (chunks.map Prod.snd)) :
    ∃ copy, c.copyOf order = some copy ∧ ∀ s ∈ copy, ∃ os, Streams ks chunks s os ∧
      os.map (fun i => ks.getD i []) = slotsInKeyOrder (chunks.map Prod.snd) := by
  have hkept : ∀ f : FrozenSnap t, f.copied = true → ∃ os, Streams ks chunks f.snap os ∧
      os.map (fun i => ks.getD i []) = slotsInKeyOrder (chunks.map Prod.snd) :=
    fun f hf => ⟨_, f.streams h hf, (f.order h).2⟩
  have hno : ∀ s ∈ (none : Option Snapshot), ∃ os, Streams ks chunks s os ∧
      os.map (fun i => ks.getD i []) = slotsInKeyOrder (chunks.map Prod.snd) :=
    fun s hs => absurd hs (by simp)
  rw [copyOf]
  by_cases hpub : c.publishes = true
  · rw [if_neg (not_not.mpr hpub)]
    cases hcopied : c.kept.filter FrozenSnap.copied with
    | some f =>
        refine ⟨some f.snap, rfl, fun s hs => ?_⟩
        rw [← Option.some.inj hs]
        exact hkept f (Option.filter_eq_some_iff.mp hcopied).2
    | none =>
        by_cases hbuild : c.build = true
        · rcases fromFrozen_ok h hperm with hnone | ⟨built, hsome, hs⟩
          · exact ⟨none, by simp [hbuild, hnone], hno⟩
          · refine ⟨_, by simp only [hbuild, not_true_eq_false, if_false, hsome]; rfl, fun s hmem => ?_⟩
            rw [← Option.some.inj hmem]
            split_ifs with hfrozen
            · cases hwon : c.won with
              | none => exact ⟨order, hs.streams, hmap⟩
              | some f => exact hkept f.1 f.2
            · exact ⟨order, hs.streams, hmap⟩
        · exact ⟨none, by simp [hbuild], hno⟩
  · exact ⟨none, if_pos hpub, hno⟩

/-- **A table sealed**, by its copy, by another's or by its chains. -/
lemma HashedTable.Held.sealRecords_eq (h : t.Held hashOf ks chunks) (env : MergeEnv)
    (plan : SealPlan) (c : SealCopies t) :
    t.sealRecords env plan c
      = some ((plan.pieces (chunks.map Prod.snd)).mapM (writeSealed env plan)) := by
  obtain ⟨order, horder, hperm, hmap⟩ := c.order_ok h
  obtain ⟨copy, hcopy, hstream⟩ := c.copyOf_ok h hperm hmap
  rw [HashedTable.sealRecords]
  simp only [Option.bind_eq_bind, horder, Option.bind_some, hcopy]
  cases hs : (if c.fromSnapshot then copy else none) with
  | none => exact sealChains_eq h env plan hperm hmap
  | some s =>
      have hmem : s ∈ copy := by
        split_ifs at hs
        exact hs
      obtain ⟨os, hos, hmap'⟩ := hstream s hmem
      exact sealStream_eq h env plan hos hmap'

end Job

/-! ## What a seal writes -/

section Written

variable {env : MergeEnv} {plan : SealPlan} {opts : WriterOptions}

/-- A record that `put_one` writes has one value. -/
def OneValue (r : SealRec) : Prop := r.2 = true → ∃ v, r.1 = ⟨r.1.key, [v], false⟩

lemma oneValue_sealRec (rs : List WalRecord) (k : Bytes) : OneValue (sealRec plan rs k) := by
  intro hone
  simp only [sealRec, Bool.and_eq_true, Bool.not_eq_true', beq_iff_eq] at hone
  obtain ⟨⟨-, htomb⟩, hlen⟩ := hone
  obtain ⟨v, hv⟩ := List.length_eq_one_iff.mp hlen
  exact ⟨v, by rw [sealRec, hv, htomb]⟩

/-- **A record is taken**, by either way of writing it. -/
lemma putRecord_taken {entries : List Entry} {s : SealWriter} {r : SealRec} (hplain : opts.Plain)
    (hone : OneValue r) (h : PieceTaken opts entries s.1 ∧ s.2 = entries.any Entry.tomb)
    (hw : Writable opts (entries ++ [r.1])) :
    ∃ s', putRecord env s r = .ok s' ∧ PieceTaken opts (entries ++ [r.1]) s'.1 ∧
      s'.2 = (entries ++ [r.1]).any Entry.tomb := by
  obtain ⟨htaken, htomb⟩ := h
  rw [putRecord]
  split_ifs with hput
  · obtain ⟨v, hv⟩ := hone hput
    obtain ⟨closed, recs, hseg⟩ := htaken.taken
    rw [hv] at hw ⊢
    obtain ⟨seg, closed', recs', hok, hseg'⟩ := hseg.putOne env.lz hplain
      (hw.fits _ (by simp)) hw.sorted hw.room
    refine ⟨(⟨seg, s.1.keys ++ [r.1.key]⟩, s.2), ?_, ⟨?_, closed', recs', hseg'⟩, ?_⟩
    · simp only [List.headD_cons, hok]
      rfl
    · simp [htaken.keys]
    · simp [htomb]
  · obtain ⟨w, hok, hw'⟩ := htaken.entry env.lz hplain hw
    refine ⟨(w, s.2 || r.1.tomb), ?_, hw', by simp [htomb]⟩
    rw [hok]
    rfl

/-- **A piece of a seal is written and holds its records.** -/
lemma writeSealed_ok {p : ℕ × Fence × List SealRec} (hclaims : env.host.Claims)
    (hsize : env.opts.blockSize < 2 ^ 32) (hone : ∀ r ∈ p.2.2, OneValue r)
    (hw : Writable env.opts (p.2.2.map Prod.fst))
    (hruns : 0 < env.opts.inlineMax ∨ ∀ r ∈ p.2.2, r.1.values ≠ []) :
    ∃ o, writeSealed env plan p = .ok o ∧
      o.name = sealName plan (plan.firstId + p.1) p.2.1 (p.2.2.any (fun r => r.1.tomb))
        o.file.length ∧
      PieceHolds env.lz env.opts.checksums o.file o.ord (p.2.2.map Prod.fst) := by
  have hplain := WriterOptions.plain_piece hsize
  have hstep : ∀ r ∈ p.2.2, ∀ es s,
      (PieceTaken env.opts.piece es s.1 ∧ s.2 = es.any Entry.tomb) →
      Writable env.opts.piece (es ++ [Prod.fst r]) → ∃ s', putRecord env s r = .ok s' ∧
        PieceTaken env.opts.piece (es ++ [Prod.fst r]) s'.1 ∧
        s'.2 = (es ++ [Prod.fst r]).any Entry.tomb :=
    fun r hr es s h hw => putRecord_taken hplain (hone r hr) h hw
  obtain ⟨s, hok, htaken, htomb⟩ := taken_run hstep (.create env.opts, false)
    ⟨pieceTaken_create hplain, rfl⟩ hw.piece
  rw [List.nil_append] at htaken htomb
  obtain ⟨file, ord, hfin, hholds⟩ := htaken.finish env.host hclaims env.lz hplain hw.piece
    (hruns.imp_right (fun h e he => by
      obtain ⟨r, hr, rfl⟩ := List.mem_map.mp he
      exact h r hr))
  refine ⟨⟨sealName plan (plan.firstId + p.1) p.2.1 s.2 file.length, file, ord⟩, ?_, ?_, hholds⟩
  · rw [writeSealed, hok]
    simp only [bind, Except.bind, finishSealed, hfin]
  · rw [htomb, List.any_map]
    rfl

end Written

/-- Two ranges, cut at `[2]`. -/
def twoRanges : SealPlan := ⟨true, 3, 9, false, 0, [([], some [2]), ([2], none)]⟩

lemma pieces_twoKeys : twoRanges.pieces (twoKeys.flatMap TableOp.records) =
    [(0, ([], some [2]), [(⟨[1], [[2], [5]], false⟩, false)]),
      (1, ([2], none), [(⟨[3], [], true⟩, false)])] := by
  have hkeys : slotsInKeyOrder (twoKeys.flatMap TableOp.records) = [[1], [3]] := by decide
  rw [SealPlan.pieces, sealRecs, hkeys]
  decide

end Supdb

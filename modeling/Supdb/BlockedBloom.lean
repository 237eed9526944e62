import Supdb.Block
import Supdb.Index
import Supdb.Lib.DelayLine
import Supdb.Superblock

/-!
# The block filter

A segment's Bloom filter is blocks of eight words.  A key's hash names one block and four bits in
it, which are set when the key is added and tested when it is asked for.  The hash is split: its
first half is the word the index keeps for the key, and the writer, which has those words already,
builds the filter from them.  With `lookahead` a word is held back in a ring until its block has
been fetched.

* `BlockedBloom` – a filter, of one block at least; `insert`, `addFnv`, `fromFnv` – its builders.
* `slotsOf` – the block and the bits of a hash; `getElem?_addFnv` – **a word added ors its masks
  into one block**, so the order of the words is of no account (`addFnv_comm`).
* `BloomFill` – the fill with its ring.  It is a delay line, so `fromFnv_eq` – **the lookahead
  changes nothing.**
* `fromWords_words`, `fromWords_isSome` – the stored words, and back.
* `bloom_exact` – **one content however it is built, and no key of it is missed.**
-/

namespace Supdb

open StorageLib

/-! ## Hashes -/

/-- A 64-bit word. -/
abbrev BloomWord : Type := BitVec 64

/-- `key_hash`, the hash's first half. -/
def keyHash (key : Bytes) : BloomWord :=
  key.foldl (fun h b => (h ^^^ b.toBitVec.setWidth 64) * 0x1000000001b3#64) 0xcbf29ce484222325#64

/-- `finalize`, the second half: what spreads the word. -/
def finalize (h : BloomWord) : BloomWord :=
  let h := (h ^^^ (h >>> 30)) * 0xbf58476d1ce4e5b9#64
  h ^^^ (h >>> 31)

/-- `BlockedBloom::hash`. -/
def bloomHash (key : Bytes) : BloomWord := finalize (keyHash key)

/-! ## The filter -/

/-- Filter bits a key. -/
def BLOOM_BITS_PER_KEY : ℕ := 10

/-- Probe bits a key sets in its block. -/
def BLOOM_PROBES : ℕ := 4

/-- Words a lookahead fill holds before setting their bits. -/
def BLOOM_AHEAD : ℕ := 16

/-- Eight words. -/
abbrev BloomBlock : Type := Fin 8 → BloomWord

/-- A filter: its blocks, one of them at least. -/
@[ext] structure BlockedBloom where
  blocks : List BloomBlock
  nonempty : blocks ≠ []

/-- One probe: the word of the block, and the bit in it. -/
abbrev Probe : Type := Fin 8 × BloomWord

lemma neZero_eight : NeZero 8 := ⟨by decide⟩

/-- The probe a state of the sequence gives. -/
def probeOf (x : BloomWord) : Probe :=
  let bit := (x >>> 55).toNat &&& 511
  (@Fin.ofNat 8 neZero_eight (bit >>> 6), 1#64 <<< (bit &&& 63))

/-- The states the probes are read off. -/
def probeStates : ℕ → BloomWord → List BloomWord
  | 0, _ => []
  | n + 1, x =>
      let x := x * 0x9e3779b97f4a7c15#64 + 1
      x :: probeStates n x

/-- `slots_of`: the block a hash names among `n`, and its probes. -/
def slotsOf (n : ℕ) (h : BloomWord) : ℕ × List Probe :=
  ((h >>> 32).toNat % n, (probeStates BLOOM_PROBES h).map probeOf)

/-- A probe's bit set. -/
def setBit (b : BloomBlock) (p : Probe) : BloomBlock := Function.update b p.1 (b p.1 ||| p.2)

namespace BlockedBloom

/-- `blocks_for`. -/
def blocksFor (n : ℕ) : ℕ := max (divCeil (n * BLOOM_BITS_PER_KEY) 512) 1

/-- `with_capacity`. -/
def withCapacity (n : ℕ) : BlockedBloom where
  blocks := List.replicate (blocksFor n) (fun _ => 0)
  nonempty := by
    intro h
    have hlen := congrArg List.length h
    rw [List.length_replicate, blocksFor, List.length_nil] at hlen
    omega

/-- A hash's bits set. -/
def setSlots (f : BlockedBloom) (s : ℕ × List Probe) : BlockedBloom where
  blocks := f.blocks.modify s.1 (fun b => s.2.foldl setBit b)
  nonempty := by
    intro h
    have hlen := congrArg List.length h
    rw [List.length_modify] at hlen
    exact f.nonempty (List.length_eq_zero_iff.mp hlen)

/-- `slots`. -/
def slots (f : BlockedBloom) (key : Bytes) : ℕ × List Probe :=
  slotsOf f.blocks.length (bloomHash key)

/-- `insert`. -/
def insert (f : BlockedBloom) (key : Bytes) : BlockedBloom := f.setSlots (f.slots key)

/-- `add_fnv`. -/
def addFnv (f : BlockedBloom) (h : BloomWord) : BlockedBloom :=
  f.setSlots (slotsOf f.blocks.length (finalize h))

/-- `maybe_contains`. -/
def maybeContains (f : BlockedBloom) (key : Bytes) : Bool :=
  let s := f.slots key
  s.2.all (fun p => f.blocks[s.1]?.any (fun b => b p.1 &&& p.2 ≠ 0))

/-- `words`: every block's words, little-endian. -/
def words (f : BlockedBloom) : Bytes :=
  f.blocks.flatMap (fun b => (List.finRange 8).flatMap (fun w => leBytes 8 (b w).toNat))

/-- A block from its 64 bytes. -/
def blockOf (c : Bytes) : BloomBlock :=
  fun w => BitVec.ofNat 64 (leNat ((chunksExact 8 c).getD w []))

/-- Whole blocks of words, and some, are blocks. -/
lemma fromWords_nonempty {bytes : Bytes} (h : ¬ (bytes = [] ∨ bytes.length % 64 ≠ 0)) :
    (chunksExact 64 bytes).map blockOf ≠ [] := by
  intro hnil
  have hlen := congrArg List.length hnil
  have hpos : 0 < bytes.length := List.length_pos_iff.mpr (fun hb => h (Or.inl hb))
  simp only [chunksExact, List.length_map, List.length_range, List.length_nil] at hlen
  omega

/-- `from_words`. -/
def fromWords (bytes : Bytes) : Option BlockedBloom :=
  if h : bytes = [] ∨ bytes.length % 64 ≠ 0 then none
  else some { blocks := (chunksExact 64 bytes).map blockOf, nonempty := fromWords_nonempty h }

end BlockedBloom

/-- `BloomFill`: the filter, whether words are held back, those that are, and how many came. -/
structure BloomFill where
  bloom : BlockedBloom
  lookahead : Bool
  ring : Fin BLOOM_AHEAD → BloomWord
  n : ℕ

namespace BloomFill

instance : NeZero BLOOM_AHEAD := ⟨by decide⟩

/-- `new`. -/
def new (bloom : BlockedBloom) (lookahead : Bool) : BloomFill := ⟨bloom, lookahead, fun _ => 0, 0⟩

/-- `add`. -/
def add (f : BloomFill) (h : BloomWord) : BloomFill :=
  if ¬ f.lookahead then { f with bloom := f.bloom.addFnv h }
  else
    let place := Fin.ofNat BLOOM_AHEAD f.n
    let bloom := if BLOOM_AHEAD ≤ f.n then f.bloom.addFnv (f.ring place) else f.bloom
    { f with bloom := bloom, ring := Function.update f.ring place h, n := f.n + 1 }

/-- `finish`. -/
def finish (f : BloomFill) : BlockedBloom :=
  if f.lookahead then
    let held := min f.n BLOOM_AHEAD
    (List.range held).foldl (fun b k => b.addFnv (f.ring (Fin.ofNat BLOOM_AHEAD (f.n - held + k))))
      f.bloom
  else f.bloom

end BloomFill

/-- `from_fnv`. -/
def BlockedBloom.fromFnv (hashes : List BloomWord) (lookahead : Bool) : BlockedBloom :=
  (hashes.foldl BloomFill.add
    (BloomFill.new (BlockedBloom.withCapacity hashes.length) lookahead)).finish

/-! ## The fill with its ring -/

namespace BloomFill

variable {f : BloomFill} {hashes : List BloomWord}

/-- A fill that holds words back, as a delay line. -/
def delayed (f : BloomFill) : DelayLine BloomWord BlockedBloom BLOOM_AHEAD := ⟨f.bloom, f.ring, f.n⟩

lemma add_ahead (hf : f.lookahead = true) (h : BloomWord) :
    (f.add h).delayed = f.delayed.push BlockedBloom.addFnv h ∧ (f.add h).lookahead = true := by
  rw [add, if_neg (by simp [hf])]
  exact ⟨rfl, hf⟩

lemma foldl_add_ahead (hf : f.lookahead = true) (hashes : List BloomWord) :
    (hashes.foldl add f).delayed = hashes.foldl (DelayLine.push BlockedBloom.addFnv) f.delayed ∧
      (hashes.foldl add f).lookahead = true := by
  induction hashes generalizing f with
  | nil => exact ⟨rfl, hf⟩
  | cons h hashes ih =>
      obtain ⟨hstep, hahead⟩ := add_ahead hf h
      rw [List.foldl_cons, List.foldl_cons, ← hstep]
      exact ih hahead

lemma foldl_add_plain (hf : f.lookahead = false) (hashes : List BloomWord) :
    (hashes.foldl add f).bloom = hashes.foldl BlockedBloom.addFnv f.bloom ∧
      (hashes.foldl add f).lookahead = false := by
  induction hashes generalizing f with
  | nil => exact ⟨rfl, hf⟩
  | cons h hashes ih =>
      have hstep : f.add h = { f with bloom := f.bloom.addFnv h } := by rw [add, if_pos (by simp [hf])]
      rw [List.foldl_cons, List.foldl_cons, hstep]
      exact ih hf

end BloomFill

/-- **The lookahead changes nothing**: the fill sets the bits of every word, in the order they came.
-/
lemma BlockedBloom.fromFnv_eq (hashes : List BloomWord) (lookahead : Bool) :
    fromFnv hashes lookahead = hashes.foldl addFnv (withCapacity hashes.length) := by
  rw [fromFnv]
  cases lookahead with
  | false =>
      obtain ⟨hbloom, hplain⟩ := BloomFill.foldl_add_plain
        (f := BloomFill.new (withCapacity hashes.length) false) rfl hashes
      rw [BloomFill.finish, if_neg (by rw [hplain]; exact Bool.false_ne_true), hbloom]
      rfl
  | true =>
      obtain ⟨hline, hahead⟩ := BloomFill.foldl_add_ahead
        (f := BloomFill.new (withCapacity hashes.length) true) rfl hashes
      have hdrain := DelayLine.drain_pushAll addFnv (withCapacity hashes.length) (fun _ : Fin BLOOM_AHEAD => 0) hashes
      rw [BloomFill.finish, if_pos hahead]
      change (DelayLine.drain addFnv (BloomFill.delayed _)) = _
      rw [hline]
      exact hdrain

/-! ## The bits of a key -/

section Bits

variable {f : BlockedBloom} {b : BloomBlock} {p : Probe} {key : Bytes} {h h' : BloomWord} {i : ℕ}

/-- What some probes or into a word of their block. -/
def maskOf (ps : List Probe) (w : Fin 8) : BloomWord :=
  ps.foldl (fun m p => m ||| if w = p.1 then p.2 else 0#64) 0#64

lemma foldl_or (ps : List Probe) (w : Fin 8) (x : BloomWord) :
    ps.foldl (fun m p => m ||| if w = p.1 then p.2 else 0#64) x = x ||| maskOf ps w := by
  induction ps generalizing x with
  | nil => simp [maskOf]
  | cons p ps ih =>
      rw [maskOf, List.foldl_cons, List.foldl_cons, ih, ih (0#64 ||| _), BitVec.zero_or, BitVec.or_assoc]

/-- **Probes set** or their mask into the block. -/
lemma foldl_setBit (ps : List Probe) (b : BloomBlock) :
    ps.foldl setBit b = fun w => b w ||| maskOf ps w := by
  funext w
  rw [← foldl_or]
  induction ps generalizing b with
  | nil => rfl
  | cons p ps ih =>
      rw [List.foldl_cons, List.foldl_cons, ih]
      congr 1
      rw [setBit, Function.update_apply]
      split_ifs with hw
      · rw [hw]
      · rw [BitVec.or_zero]

/-- What a hash ors into a word of a filter of `n` blocks. -/
def maskAt (n : ℕ) (h : BloomWord) (i : ℕ) (w : Fin 8) : BloomWord :=
  if i = (slotsOf n (finalize h)).1 then maskOf (slotsOf n (finalize h)).2 w else 0#64

/-- **A word added** ors its masks into the filter. -/
lemma getElem?_addFnv (f : BlockedBloom) (h : BloomWord) (i : ℕ) :
    (f.addFnv h).blocks[i]?
    = f.blocks[i]?.map (fun b w => b w ||| maskAt f.blocks.length h i w) := by
  rw [BlockedBloom.addFnv, BlockedBloom.setSlots, List.getElem?_modify]
  by_cases hi : i = (slotsOf f.blocks.length (finalize h)).1
  · simp only [if_pos hi.symm]
    refine congrFun (congrArg Option.map ?_) _
    funext b w
    rw [foldl_setBit, maskAt, if_pos hi]
  · simp only [if_neg (Ne.symm hi)]
    refine congrFun (congrArg Option.map ?_) _
    funext b w
    rw [maskAt, if_neg hi, BitVec.or_zero]

@[simp] lemma length_addFnv (f : BlockedBloom) (h : BloomWord) :
    (f.addFnv h).blocks.length = f.blocks.length := by
  rw [BlockedBloom.addFnv, BlockedBloom.setSlots, List.length_modify]

/-- **The order of two words** is of no account. -/
lemma addFnv_comm (f : BlockedBloom) (h h' : BloomWord) :
    (f.addFnv h).addFnv h' = (f.addFnv h').addFnv h := by
  refine BlockedBloom.ext (List.ext_getElem? (fun i => ?_))
  rw [getElem?_addFnv, getElem?_addFnv, getElem?_addFnv, getElem?_addFnv, length_addFnv,
    length_addFnv, Option.map_map, Option.map_map]
  refine congrFun (congrArg Option.map ?_) _
  funext b w
  simp only [Function.comp_apply]
  rw [BitVec.or_assoc, BitVec.or_assoc, BitVec.or_comm (maskAt _ h _ _)]

lemma foldl_addFnv_perm {hs hs' : List BloomWord} (hperm : hs.Perm hs') (f : BlockedBloom) :
    hs.foldl BlockedBloom.addFnv f = hs'.foldl BlockedBloom.addFnv f := by
  have : RightCommutative BlockedBloom.addFnv := ⟨addFnv_comm⟩
  exact hperm.foldl_eq f

lemma foldl_insert (f : BlockedBloom) (keys : List Bytes) :
    keys.foldl BlockedBloom.insert f = (keys.map keyHash).foldl BlockedBloom.addFnv f := by
  rw [List.foldl_map]
  rfl

/-! ## No key is missed -/

/-- The filter has every bit of a hash. -/
def HasBits (f : BlockedBloom) (h : BloomWord) : Prop :=
  ∃ b, f.blocks[(slotsOf f.blocks.length (finalize h)).1]? = some b ∧
    ∀ w, b w ||| maskOf (slotsOf f.blocks.length (finalize h)).2 w = b w

/-- A word added has its bits. -/
lemma hasBits_addFnv (f : BlockedBloom) (h : BloomWord) : HasBits (f.addFnv h) h := by
  have hlt : (slotsOf f.blocks.length (finalize h)).1 < f.blocks.length :=
    Nat.mod_lt _ (List.length_pos_iff.mpr f.nonempty)
  rw [HasBits, length_addFnv, getElem?_addFnv, List.getElem?_eq_getElem hlt]
  refine ⟨_, rfl, ?_⟩
  intro w
  dsimp only
  rw [maskAt, if_pos rfl, BitVec.or_assoc, BitVec.or_self]

/-- Bits once set stay. -/
lemma HasBits.addFnv (hf : HasBits f h) (h' : BloomWord) : HasBits (f.addFnv h') h := by
  obtain ⟨b, hb, hall⟩ := hf
  rw [HasBits, length_addFnv, getElem?_addFnv, hb]
  refine ⟨_, rfl, ?_⟩
  intro w
  dsimp only
  rw [BitVec.or_assoc, BitVec.or_comm (maskAt _ _ _ _), ← BitVec.or_assoc, hall w]

/-- **Every word of a list has its bits** in the filter it was added to. -/
lemma hasBits_of_mem {hs : List BloomWord} (f : BlockedBloom) (hmem : h ∈ hs) :
    HasBits (hs.foldl BlockedBloom.addFnv f) h := by
  have hkeep : ∀ (hs : List BloomWord) (f : BlockedBloom), HasBits f h →
    HasBits (hs.foldl BlockedBloom.addFnv f) h := by
    intro hs
    induction hs with
    | nil => exact fun f hf => hf
    | cons h' hs ih => exact fun f hf => ih _ (hf.addFnv h')
  induction hs generalizing f with
  | nil => exact absurd hmem List.not_mem_nil
  | cons h' hs ih =>
      rcases List.mem_cons.mp hmem with rfl | hmem
      · exact hkeep hs _ (hasBits_addFnv f h)
      · exact ih _ hmem

/-- A probe's bit is one. -/
lemma probeOf_ne_zero (x : BloomWord) : (probeOf x).2 ≠ 0 := by
  have hlt : (x.toNat >>> 55 &&& 511) &&& 63 < 64 := Nat.and_lt_two_pow (n := 6) _ (by norm_num)
  intro hzero
  have hbit := congrArg (fun m => m.getLsbD ((x.toNat >>> 55 &&& 511) &&& 63)) hzero
  simp [probeOf] at hbit
  exact absurd hbit (not_le.mpr hlt)

/-- A probe's bit is in the mask of its word. -/
lemma maskOf_or {ps : List Probe} (hp : p ∈ ps) : maskOf ps p.1 ||| p.2 = maskOf ps p.1 := by
  induction ps with
  | nil => exact absurd hp List.not_mem_nil
  | cons q ps ih =>
      rw [maskOf, List.foldl_cons, foldl_or, BitVec.zero_or]
      rcases List.mem_cons.mp hp with rfl | hp
      · rw [if_pos rfl, BitVec.or_comm p.2, BitVec.or_assoc, BitVec.or_self]
      · rw [BitVec.or_assoc, ih hp]

/-- A word that has a mask meets every part of it. -/
lemma and_ne_zero {x m : BloomWord} (hx : x ||| m = x) (hm : m ≠ 0) : x &&& m ≠ 0 := by
  have hand : x &&& m = m := by
    rw [← hx]
    refine BitVec.eq_of_getLsbD_eq (fun i _ => ?_)
    simp only [BitVec.getLsbD_and, BitVec.getLsbD_or]
    cases x.getLsbD i <;> cases m.getLsbD i <;> rfl
  rw [hand]
  exact hm

/-- **A filter with a key's bits answers true.** -/
lemma HasBits.maybeContains (hf : HasBits f (keyHash key)) : f.maybeContains key = true := by
  obtain ⟨b, hb, hall⟩ := hf
  rw [BlockedBloom.maybeContains]
  refine List.all_eq_true.mpr (fun p hp => ?_)
  have hb' : f.blocks[(f.slots key).1]? = some b := hb
  rw [hb']
  have hmask := maskOf_or hp
  have hword : b p.1 ||| p.2 = b p.1 := by
    have hp' := hall p.1
    have hsame : maskOf (slotsOf f.blocks.length (finalize (keyHash key))).2 p.1
      = maskOf (f.slots key).2 p.1 := rfl
    rw [hsame] at hp'
    rw [← hp', BitVec.or_assoc, hmask]
  obtain ⟨x, -, rfl⟩ := List.mem_map.mp hp
  exact decide_eq_true (and_ne_zero hword (probeOf_ne_zero x))

end Bits

/-! ## The stored words -/

namespace BlockedBloom

/-- The bytes of a block. -/
lemma length_blockBytes (b : BloomBlock) :
    ((List.finRange 8).flatMap (fun w => leBytes 8 (b w).toNat)).length = 64 := by
  simp [List.length_flatMap]

/-- **A block is read back.** -/
lemma blockOf_bytes (b : BloomBlock) :
    blockOf ((List.finRange 8).flatMap (fun w => leBytes 8 (b w).toNat)) = b := by
  funext w
  have hcut : chunksExact 8 ((List.finRange 8).flatMap (fun w => leBytes 8 (b w).toNat))
      = (List.finRange 8).map (fun w => leBytes 8 (b w).toNat) := by
    rw [List.flatMap_def]
    refine chunksExact_flatten (by norm_num) _ (fun v hv => ?_)
    obtain ⟨w, -, rfl⟩ := List.mem_map.mp hv
    exact length_leBytes _ _
  have hword : (b w).toNat < 256 ^ 8 := (b w).isLt
  rw [blockOf, hcut, List.getD_eq_getElem?_getD, List.getElem?_map,
    List.getElem?_eq_getElem (by simp), Option.map_some, Option.getD_some, List.getElem_finRange]
  have hsame : b (Fin.cast (List.length_finRange) ⟨w, by simp⟩) = b w := rfl
  rw [leNat_leBytes (by exact (b _).isLt), BitVec.ofNat_toNat, BitVec.setWidth_eq]
  rfl

/-- **The words are read back.** -/
lemma fromWords_words (f : BlockedBloom) : fromWords f.words = some f := by
  have hcut : chunksExact 64 f.words
      = f.blocks.map (fun b => (List.finRange 8).flatMap (fun w => leBytes 8 (b w).toNat)) := by
    rw [words, List.flatMap_def]
    refine chunksExact_flatten (by norm_num) _ (fun v hv => ?_)
    obtain ⟨b, -, rfl⟩ := List.mem_map.mp hv
    exact length_blockBytes b
  have hlen : f.words.length = f.blocks.length * 64 := by
    rw [words, List.flatMap_def, length_flatten_of_width (w := 64), List.length_map]
    intro v hv
    obtain ⟨b, -, rfl⟩ := List.mem_map.mp hv
    exact length_blockBytes b
  have hpos : 0 < f.blocks.length := List.length_pos_iff.mpr f.nonempty
  have hne : f.words ≠ [] := List.length_pos_iff.mp (by omega)
  have hwhole : ¬ (f.words = [] ∨ f.words.length % 64 ≠ 0) := by
    rintro (hnil | hmod)
    · exact hne hnil
    · omega
  rw [fromWords, dif_neg hwhole]
  refine congrArg some (BlockedBloom.ext ?_)
  change (chunksExact 64 f.words).map blockOf = f.blocks
  rw [hcut, List.map_map]
  refine (List.map_congr_left (fun b _ => ?_)).trans (List.map_id _)
  exact blockOf_bytes b

/-- **What is taken for words**: whole blocks, one at least. -/
lemma fromWords_isSome (bytes : Bytes) : (fromWords bytes).isSome ↔ bytes ≠ [] ∧
    64 ∣ bytes.length := by
  rw [fromWords]
  split_ifs with h
  · refine iff_of_false (by simp) ?_
    rintro ⟨hne, hdvd⟩
    exact h.elim hne (fun hmod => hmod (Nat.mod_eq_zero_of_dvd hdvd))
  · refine iff_of_true rfl ⟨fun hnil => h (Or.inl hnil), ?_⟩
    by_contra hdvd
    exact h (Or.inr (fun hmod => hdvd (Nat.dvd_of_mod_eq_zero hmod)))

end BlockedBloom

/-! ## One content -/

open BlockedBloom in
/-- **One content, and no false negatives**: the keys inserted, their hash words added, and the
words filled in with and without lookahead give one filter, in whatever order the keys come; it
answers true for each of them; and the stored words are read back, only whole blocks being taken for
a filter. -/
theorem bloom_exact (keys : List Bytes) :
    (keys.map keyHash).foldl addFnv (withCapacity keys.length)
      = keys.foldl insert (withCapacity keys.length) ∧
      (∀ lookahead, fromFnv (keys.map keyHash) lookahead
      = keys.foldl insert (withCapacity keys.length)) ∧ (∀ ks : List Bytes, ks.Perm keys →
        ks.foldl insert (withCapacity ks.length) = keys.foldl insert (withCapacity keys.length)) ∧
      (∀ key ∈ keys, (keys.foldl insert (withCapacity keys.length)).maybeContains key = true) ∧
      (∀ f : BlockedBloom, fromWords f.words = some f) ∧
      ∀ bytes : Bytes, (fromWords bytes).isSome ↔ bytes ≠ [] ∧ 64 ∣ bytes.length := by
  refine ⟨(foldl_insert _ _).symm, fun lookahead => ?_, fun ks hperm => ?_, fun key hkey => ?_,
    fromWords_words, fromWords_isSome⟩
  · rw [fromFnv_eq, List.length_map, foldl_insert]
  · rw [foldl_insert, foldl_insert, hperm.length_eq]
    exact foldl_addFnv_perm (hperm.map keyHash) _
  · rw [foldl_insert]
    exact (hasBits_of_mem _ (List.mem_map_of_mem hkey)).maybeContains

open BlockedBloom in
/-- Two keys, one of them empty, in either order. -/
theorem bloom_exact_two :
    (List.foldl insert (withCapacity 2) [[], [7]]).maybeContains [7] = true ∧
      List.foldl insert (withCapacity 2) [[7], []] = List.foldl insert (withCapacity 2) [[], [7]] :=
  ⟨(bloom_exact [[], [7]]).2.2.2.1 [7] (by decide),
    (bloom_exact [[], [7]]).2.2.1 [[7], []] (List.Perm.swap _ _ _)⟩

end Supdb

import Supdb.ArenaRun

/-!
# The stream's arena

A direct run's records lie in an arena as one unbroken stream: a reservation may run over the end of
a block, every block is of one size, and the blocks behind what the file holds are given up and
their memory taken for blocks to come.  An uncommitted tail is rewound.

* `StreamArena.reserveContig`, `StreamArena.writeContig`, `StreamArena.rewind`,
  `StreamArena.recycleBelow` – the operations.
* `StreamState.Good` – what is asked: **the ranges that were not rewound lie one behind another
  without a gap**, and **every byte that is not recycled reads back as it was last written**.
* `StreamOp.Meets` – when an operation finds what it needs: block numbers left; a write of bytes
  that are reserved and not recycled; and a rewind to where a range ended, **not behind a recycled
  block**.
* `StreamState.Ok`, `StreamState.Ok.step`, `StreamState.Ok.run` – the invariant, a step of it and a
  run.
* `arenas_exact` – **both ways to use an arena.**
-/

namespace Supdb

open StorageLib

/-- An arena used as a stream.  `recycled` is the block below which all were offered to be given up;
`retired` has the memory given up and the epoch each was given up in, `free` what no reader can hold
any more. -/
structure StreamArena where
  blocks : ℕ → Option Bytes
  tail : ℕ
  blockEnd : ℕ
  nextBlock : ℕ
  blockStart : ℕ
  used : ℕ
  recycled : ℕ
  retired : List (ℕ × Bytes)
  free : List Bytes

/-- A block's bytes. -/
def blockLen (shift : ℕ) : ℕ := 2 ^ shift

lemma blockLen_pos (shift : ℕ) : 0 < blockLen shift := Nat.two_pow_pos shift

namespace StreamArena

/-- `ByteArena::with_shift`. -/
def new : StreamArena := ⟨fun _ => none, 0, 0, 0, 0, 0, 0, [], []⟩

/-- `block_at`: the block there, or one of memory given back, or a fresh one. -/
def blockAt (shift : ℕ) (a : StreamArena) (b : ℕ) : StreamArena :=
  match a.blocks b with
  | some _ => a
  | none =>
      match a.free.getLast? with
      | some mem => { a with free := a.free.dropLast, blocks := Function.update a.blocks b (some mem) }
      | none => { a with blocks := Function.update a.blocks b (some (List.replicate (blockLen shift) 0)) }

/-- The tail's block moved to the next. -/
def advance (shift : ℕ) (a : StreamArena) : StreamArena :=
  { a.blockAt shift a.nextBlock with
    blockStart := a.nextBlock * blockLen shift
    blockEnd := a.nextBlock * blockLen shift + blockLen shift
    nextBlock := a.nextBlock + 1 }

/-- The loop of `reserve_contig`, over as many blocks as `left` bytes take. -/
def reserveOver (shift : ℕ) (a : StreamArena) (left : ℕ) : Option StreamArena :=
  if a.nextBlock < ARENA_BLOCKS then
    if left ≤ blockLen shift then some
      { a.advance shift with tail := a.nextBlock * blockLen shift + left }
    else reserveOver shift (a.advance shift) (left - blockLen shift)
  else none
termination_by left
decreasing_by
  have hpos := blockLen_pos shift
  omega

/-- `reserve_contig`: `n` bytes at the tail, at the offset returned. -/
def reserveContig (shift : ℕ) (a : StreamArena) (n : ℕ) : Option (StreamArena × ℕ) :=
  if n ≤ a.blockEnd - a.tail ∧
    0 < a.blockEnd then some ({ a with tail := a.tail + n, used := a.used + n }, a.tail)
  else (a.reserveOver shift (n - (a.blockEnd - a.tail))).map
    (fun a' => ({ a' with used := a'.used + n }, a.tail))

/-- `block`: the block of an offset, with room in it for so many bytes, and the place inside. -/
def block (shift : ℕ) (a : StreamArena) (off len : ℕ) : Option (Bytes × ℕ) := do
  let mem ← a.blocks (off / blockLen shift)
  if off % blockLen shift + len ≤ mem.length then some (mem, off % blockLen shift) else none

/-- `write`. -/
def write (shift : ℕ) (a : StreamArena) (off : ℕ) (bytes : Bytes) : Option StreamArena := do
  let (mem, w) ← a.block shift off bytes.length
  some { a with blocks := Function.update a.blocks (off / blockLen shift) (some (writeAt mem w bytes)) }

/-- `slice`. -/
def slice (shift : ℕ) (a : StreamArena) (off len : ℕ) : Option Bytes := do
  let (mem, w) ← a.block shift off len
  some (StorageLib.slice mem w (w + len))

/-- `write_contig`: a block's part after another. -/
def writeContig (shift : ℕ) (a : StreamArena) (off : ℕ) (rest : Bytes) : Option StreamArena :=
  if _h : rest = [] then some a
  else
    let part := min rest.length (blockLen shift - off % blockLen shift)
    (a.write shift off (rest.take part)).bind
      (fun a => writeContig shift a (off + part) (rest.drop part))
termination_by rest.length
decreasing_by
  have hmod := Nat.mod_lt off (blockLen_pos shift)
  have hlen := List.length_pos_iff.mpr _h
  rw [List.length_drop]
  omega

/-- The block a tail rewound to sits in: the one before where it is a block's first byte. -/
def tailBlock (shift to' : ℕ) : ℕ :=
  if 0 < to' ∧ to' % blockLen shift = 0 then to' / blockLen shift - 1 else to' / blockLen shift

/-- `rewind`. -/
def rewind (shift : ℕ) (a : StreamArena) (to' : ℕ) : StreamArena :=
  if to' = a.tail then a
  else
    let b := tailBlock shift to'
    let a := { a with used := a.used - (a.tail - to'), tail := to' }
    if a.blockStart ≠ b * blockLen shift then
      { a with blockStart := b * blockLen shift, blockEnd := b * blockLen shift + blockLen shift, nextBlock := b + 1 }
    else a

/-- The blocks from `recycled` to `last` taken out, under an epoch. -/
def takeOut (a : StreamArena) (last tag : ℕ) : StreamArena :=
  if a.recycled < last then
    { a with
      blocks := fun b => if a.recycled ≤ b ∧ b < last then none else a.blocks b
      recycled := last
      retired := a.retired ++
        ((List.range' a.recycled (last - a.recycled)).filterMap a.blocks).map (fun p => (tag, p)) }
  else a

/-- The memory no reader pinned before `oldest` can hold, to the free list. -/
def reclaim (a : StreamArena) (oldest : ℕ) : StreamArena :=
  { a with
    free := a.free ++ (a.retired.filter (fun p => p.1 ≤ oldest)).map Prod.snd
    retired := a.retired.filter (fun p => ¬ p.1 ≤ oldest) }

/-- `recycle_below`: `tag` is the epoch the blocks are taken out under, `oldest` the oldest a reader
is pinned at. -/
def recycleBelow (shift : ℕ) (a : StreamArena) (off tag oldest : ℕ) : StreamArena :=
  (a.takeOut (min (off / blockLen shift) (a.blockStart / blockLen shift)) tag).reclaim oldest

end StreamArena

/-! ## Runs -/

/-- What is done with a stream's arena: bytes reserved; bytes written; the tail rewound to where the
first so many ranges end; the blocks below an offset recycled, under an epoch, with the oldest a
reader is pinned at. -/
inductive StreamOp where
  | reserve (n : ℕ)
  | write (off : ℕ) (bytes : Bytes)
  | rewind (j : ℕ)
  | recycle (off tag oldest : ℕ)
  deriving DecidableEq, Repr

/-- The arena, the ranges that were not rewound, and what each byte of the stream was last given. -/
structure StreamState where
  arena : StreamArena
  ranges : List (ℕ × ℕ)
  known : ℕ → Option UInt8

/-- Ranges one behind another without a gap, between two places. -/
def Contiguous : ℕ → List (ℕ × ℕ) → ℕ → Prop
  | start, [], stop => start = stop
  | start, r :: rs, stop => r.1 = start ∧ Contiguous (start + r.2) rs stop

namespace StreamState

/-- A new arena. -/
def new : StreamState := ⟨.new, [], fun _ => none⟩

/-- Where the first `j` ranges end. -/
def endOf (s : StreamState) (j : ℕ) : ℕ := ((s.ranges.take j).map Prod.snd).sum

/-- One operation; `none` where the source asserts. -/
def step (shift : ℕ) (s : StreamState) : StreamOp → Option StreamState
  | .reserve n =>
      (s.arena.reserveContig shift n).map (fun r => ⟨r.1, s.ranges ++ [(r.2, n)], s.known⟩)
  | .write off bytes =>
      (s.arena.writeContig shift off bytes).map (fun a => ⟨a, s.ranges, overlay s.known off bytes⟩)
  | .rewind j => some ⟨s.arena.rewind shift (s.endOf j), s.ranges.take j,
      fun x => if x < s.endOf j then s.known x else none⟩
  | .recycle off tag oldest => some { s with arena := s.arena.recycleBelow shift off tag oldest }

/-- The calls of a stream in any order, until one traps. -/
def run (shift : ℕ) (s : StreamState) (ops : List StreamOp) : Option StreamState :=
  ops.foldlM (step shift) s

/-- What is asked of a stream's arena. -/
structure Good (shift : ℕ) (s : StreamState) : Prop where
  /-- The ranges are the stream, without a gap. -/
  contiguous : Contiguous 0 s.ranges s.arena.tail
  /-- No two of them share a byte. -/
  apart : s.ranges.Pairwise (fun r r' => r.1 + r.2 ≤ r'.1)
  /-- Bytes of a block that is not recycled read as they were last written. -/
  reads : ∀ (off : ℕ) (bytes : Bytes), bytes ≠ [] → s.arena.recycled * blockLen shift ≤ off →
    off % blockLen shift + bytes.length ≤ blockLen shift → off + bytes.length ≤ s.arena.tail →
    (∀ i v, bytes[i]? = some v → s.known (off + i) = some v) → s.arena.slice shift off bytes.length
    = some bytes

end StreamState

/-- What an operation needs of the state it finds. -/
def StreamOp.Meets (shift : ℕ) (s : StreamState) : StreamOp → Prop
  | reserve n => s.arena.tail + n ≤ ARENA_BLOCKS * blockLen shift
  | write off bytes => bytes = [] ∨
      (s.arena.recycled * blockLen shift ≤ off ∧ off + bytes.length ≤ s.arena.tail)
  | rewind j => s.arena.recycled * blockLen shift ≤ s.endOf j
  | recycle _ _ _ => True

/-- Every operation of a run meets what it needs, in the state it finds. -/
def StreamState.MeetsAll (shift : ℕ) (s : StreamState) : List StreamOp → Prop
  | [] => True
  | op :: ops => op.Meets shift s ∧ ∀ s' ∈ s.step shift op, StreamState.MeetsAll shift s' ops

/-! ## Blocks -/

/-- Blocks of one size, there from the recycled on to the next, which show what is known of the
stream. -/
structure StreamArena.Held (shift : ℕ) (a : StreamArena) (known : ℕ → Option UInt8) : Prop where
  plain : ∀ b mem, a.blocks b = some mem → mem.length = blockLen shift
  free : ∀ mem ∈ a.free, mem.length = blockLen shift
  retired : ∀ p ∈ a.retired, p.2.length = blockLen shift
  reach : a.recycled ≤ a.nextBlock
  there : ∀ b, a.recycled ≤ b → b < a.nextBlock → ∃ mem, a.blocks b = some mem
  shown : ∀ b mem, a.recycled ≤ b → a.blocks b = some mem →
    Shows known (b * blockLen shift) mem 0 (blockLen shift)

section Blocks

variable {shift : ℕ} {a : StreamArena} {known : ℕ → Option UInt8} {left off : ℕ} {bytes : Bytes}

/-- What `block_at` makes: the block is there, and the others are as they were. -/
lemma blockAt_spec (b : ℕ) (h : a.Held shift known) :
    ∃ mem blocks free, a.blockAt shift b = { a with blocks := blocks, free := free } ∧
      blocks b = some mem ∧ mem.length = blockLen shift ∧ (∀ c, c ≠ b → blocks c = a.blocks c) ∧
      ∀ mem ∈ free, mem.length = blockLen shift := by
  rw [StreamArena.blockAt]
  cases hb : a.blocks b with
  | some mem =>
      exact ⟨mem, a.blocks, a.free, rfl, hb, h.plain b mem hb, fun _ _ => rfl, h.free⟩
  | none =>
      cases hlast : a.free.getLast? with
      | some mem =>
          refine ⟨mem, _, _, rfl, Function.update_self .., h.free mem (List.mem_of_getLast? hlast),
            fun c hc => Function.update_of_ne hc _ _, fun mem' hmem' => ?_⟩
          exact h.free mem' (List.dropLast_subset _ hmem')
      | none =>
          exact ⟨_, _, a.free, rfl, Function.update_self .., List.length_replicate,
            fun c hc => Function.update_of_ne hc _ _, h.free⟩

/-- **A block more**: what was held is held, where nothing is known of the new block's bytes. -/
lemma StreamArena.Held.advance (h : a.Held shift known)
    (hfresh : ∀ x, a.nextBlock * blockLen shift ≤ x → known x = none) :
      (a.advance shift).Held shift known ∧
      (a.advance shift).recycled = a.recycled ∧ (a.advance shift).used = a.used := by
  obtain ⟨mem, blocks, free, heq, hmem, hlen, hother, hfree⟩ := blockAt_spec a.nextBlock h
  rw [StreamArena.advance, heq]
  refine ⟨⟨fun c mem' hc => ?_, hfree, h.retired, h.reach.trans (Nat.le_succ _),
    fun c hlo hhi => ?_, fun c mem' hlo hc => ?_⟩, rfl, rfl⟩
  · by_cases hcb : c = a.nextBlock
    · rw [hcb] at hc
      rw [← Option.some.inj (hmem.symm.trans hc), hlen]
    · exact h.plain c mem' ((hother c hcb).symm.trans hc)
  · by_cases hcb : c = a.nextBlock
    · exact ⟨mem, hcb ▸ hmem⟩
    · obtain ⟨mem', hc⟩ := h.there c hlo (lt_of_le_of_ne (Nat.lt_succ_iff.mp hhi) hcb)
      exact ⟨mem', (hother c hcb).trans hc⟩
  · by_cases hcb : c = a.nextBlock
    · subst hcb
      exact Shows.fresh (fun i _ => hfresh _ (Nat.le_add_right _ _))
    · exact h.shown c mem' hlo ((hother c hcb).symm.trans hc)

/-- Where the tail lies: at the start of an arena that has no block, or in its newest. -/
def StreamArena.Placed (shift : ℕ) (a : StreamArena) : Prop :=
  a.blockEnd = 0 ∧ a.nextBlock = 0 ∧ a.tail = 0 ∧ a.blockStart = 0 ∨
    0 < a.nextBlock ∧ a.blockEnd = a.nextBlock * blockLen shift ∧
      a.blockStart + blockLen shift = a.blockEnd ∧ a.blockStart ≤ a.tail ∧ a.tail ≤ a.blockEnd

/-- The reservation's loop, over as many blocks as it takes. -/
lemma reserveOver_spec (h : a.Held shift known) (hfresh : ∀ x, a.nextBlock * blockLen shift ≤ x → known x = none)
    (hfew : a.nextBlock < ARENA_BLOCKS) (hroom : a.nextBlock * blockLen shift + left ≤ ARENA_BLOCKS * blockLen shift) :
    ∃ a', a.reserveOver shift left = some a' ∧ a'.Held shift known ∧ a'.Placed shift ∧
      a'.tail = a.nextBlock * blockLen shift + left ∧ a'.recycled = a.recycled := by
  induction left using Nat.strong_induction_on generalizing a with
  | _ left ih =>
      have hpos := blockLen_pos shift
      have hnext : (a.nextBlock + 1) * blockLen shift = a.nextBlock * blockLen shift + blockLen shift :=
        Nat.succ_mul _ _
      obtain ⟨hheld, hrec, -⟩ := h.advance hfresh
      rw [StreamArena.reserveOver, if_pos hfew]
      by_cases hlast : left ≤ blockLen shift
      · rw [if_pos hlast]
        refine ⟨_, rfl, ⟨hheld.plain, hheld.free, hheld.retired, hheld.reach, hheld.there, hheld.shown⟩, Or.inr ?_,
          rfl, hrec⟩
        refine ⟨Nat.succ_pos _, hnext.symm, rfl, Nat.le_add_right _ _, ?_⟩
        exact Nat.add_le_add_left hlast _
      · rw [if_neg hlast]
        have hstep : (a.advance shift).nextBlock = a.nextBlock + 1 := rfl
        obtain ⟨a', hrun, hheld', hplaced, htail, hrec'⟩ := ih (left - blockLen shift)
          (by omega) hheld (fun x hx => hfresh x (by rw [hstep, hnext] at hx; omega))
          (by rw [hstep]; exact Nat.lt_of_mul_lt_mul_right (a := blockLen shift) (by omega))
          (by rw [hstep]; omega)
        refine ⟨a', hrun, hheld', hplaced, ?_, hrec'.trans hrec⟩
        rw [htail, hstep]
        omega

/-- A write inside one block. -/
lemma StreamArena.Held.write (bytes : Bytes) (h : a.Held shift known)
    (hlo : a.recycled ≤ off / blockLen shift) (hhi : off / blockLen shift < a.nextBlock)
    (hin : off % blockLen shift + bytes.length ≤ blockLen shift) :
    ∃ blocks, a.write shift off bytes = some { a with blocks := blocks } ∧
      StreamArena.Held shift { a with blocks := blocks } (overlay known off bytes) := by
  obtain ⟨mem, hmem⟩ := h.there _ hlo hhi
  have hlen := h.plain _ mem hmem
  have hroom : off % blockLen shift + bytes.length ≤ mem.length := hlen.symm ▸ hin
  have hoff := Nat.div_add_mod off (blockLen shift)
  rw [Nat.mul_comm] at hoff
  set b := off / blockLen shift with hb
  set written := writeAt mem (off % blockLen shift) bytes with hwritten
  have hself : Function.update a.blocks b (some written) b = some written := Function.update_self ..
  have hother : ∀ c, c ≠ b → Function.update a.blocks b (some written) c = a.blocks c :=
    fun c hc => Function.update_of_ne hc _ _
  refine ⟨Function.update a.blocks b (some written), ?_, fun c mem' hc => ?_, h.free,
    h.retired, h.reach, fun c hclo hchi => ?_, fun c mem' hclo hc => ?_⟩
  · rw [StreamArena.write, StreamArena.block, ← hb, hmem]
    simp only [Option.bind_eq_bind, Option.bind_some, if_pos hroom]
    rfl
  · by_cases hcb : c = b
    · rw [hcb] at hc
      rw [← Option.some.inj (hself.symm.trans hc), hwritten, length_writeAt_of_le hroom, hlen]
    · exact h.plain c mem' ((hother c hcb).symm.trans hc)
  · by_cases hcb : c = b
    · exact ⟨written, hcb ▸ hself⟩
    · obtain ⟨mem', hc⟩ := h.there c hclo hchi
      exact ⟨mem', (hother c hcb).trans hc⟩
  · by_cases hcb : c = b
    · subst hcb
      have hw := (h.shown b mem hlo hmem).write hin (by rw [hlen, Nat.zero_add])
      rw [hoff, Nat.zero_add] at hw
      rw [← Option.some.inj (hself.symm.trans hc)]
      exact hw
    · -- another block's bytes are apart from the written
      refine (h.shown c mem' hclo ((hother c hcb).symm.trans hc)).elsewhere ?_
      rcases Nat.lt_or_gt_of_ne hcb with hlt | hgt
      · have hmul := Nat.mul_le_mul_right (blockLen shift) (Nat.succ_le_of_lt hlt)
        rw [Nat.succ_mul] at hmul
        omega
      · have hmul := Nat.mul_le_mul_right (blockLen shift) (Nat.succ_le_of_lt hgt)
        rw [Nat.succ_mul] at hmul
        omega

/-- **A write over blocks**, a block's part after another. -/
lemma writeContig_spec (h : a.Held shift known) (hlo : a.recycled * blockLen shift ≤ off)
    (hhi : off + bytes.length ≤ a.nextBlock * blockLen shift) :
    ∃ blocks, a.writeContig shift off bytes = some { a with blocks := blocks } ∧
      StreamArena.Held shift { a with blocks := blocks } (overlay known off bytes) := by
  induction hn : bytes.length using Nat.strong_induction_on generalizing a known off bytes with
  | _ n ih =>
      have hpos := blockLen_pos shift
      rw [StreamArena.writeContig]
      by_cases hnil : bytes = []
      · rw [dif_pos hnil, hnil, overlay_nil]
        exact ⟨a.blocks, rfl, h⟩
      · have hlen := List.length_pos_iff.mpr hnil
        have hmod := Nat.mod_lt off hpos
        rw [dif_neg hnil]
        set part := min bytes.length (blockLen shift - off % blockLen shift) with hpart
        have htake : (bytes.take part).length = part := by
          rw [List.length_take]
          omega
        obtain ⟨blocks, hwrite, hheld⟩ := h.write (bytes.take part) ((Nat.le_div_iff_mul_le hpos).mpr hlo)
          ((Nat.div_lt_iff_lt_mul hpos).mpr (by omega)) (by rw [htake]; omega)
        obtain ⟨blocks', hrest, hheld'⟩ := @ih (n - part) (by omega) { a with blocks := blocks } _ (off + part)
          (bytes.drop part) hheld (hlo.trans (Nat.le_add_right _ _))
          (by rw [List.length_drop]; show _ ≤ a.nextBlock * blockLen shift; omega) (by rw [List.length_drop, hn])
        refine ⟨blocks', ?_, ?_⟩
        · show (a.write shift off (bytes.take part)).bind _ = _
          rw [hwrite, Option.bind_some]
          exact hrest
        · have hover := overlay_append known off (bytes.take part) (bytes.drop part)
          rw [htake, List.take_append_drop] at hover
          rw [← hover]
          exact hheld'

end Blocks

/-! ## Ranges -/

section Ranges

variable {start stop n : ℕ} {rs : List (ℕ × ℕ)}

lemma Contiguous.snoc (h : Contiguous start rs stop) : Contiguous start (rs ++ [(stop, n)])
    (stop + n) := by
  induction rs generalizing start with
  | nil =>
      have hstop : start = stop := h
      subst hstop
      exact ⟨rfl, rfl⟩
  | cons r rs ih => exact ⟨h.1, ih h.2⟩

/-- The first ranges end where their lengths add up to. -/
lemma Contiguous.take (h : Contiguous start rs stop) (j : ℕ) :
    Contiguous start (rs.take j) (start + ((rs.take j).map Prod.snd).sum) ∧
      start + ((rs.take j).map Prod.snd).sum ≤ stop := by
  induction rs generalizing start j with
  | nil =>
      have hstop : start = stop := h
      rw [List.take_nil]
      exact ⟨rfl, hstop.le⟩
  | cons r rs ih =>
      cases j with
      | zero =>
          obtain ⟨-, hle⟩ := ih h.2 0
          rw [List.take_zero] at hle ⊢
          exact ⟨rfl, (Nat.add_le_add_right (Nat.le_add_right start r.2) _).trans hle⟩
      | succ j =>
          obtain ⟨hrest, hle⟩ := ih h.2 j
          rw [List.take_succ_cons, List.map_cons, List.sum_cons, ← Nat.add_assoc]
          exact ⟨⟨h.1, hrest⟩, hle⟩

/-- Ranges one behind another share no byte. -/
lemma Contiguous.apart (h : Contiguous start rs stop) :
    (∀ r ∈ rs, start ≤ r.1) ∧ rs.Pairwise (fun r r' => r.1 + r.2 ≤ r'.1) := by
  induction rs generalizing start with
  | nil => exact ⟨fun r hr => absurd hr List.not_mem_nil, List.Pairwise.nil⟩
  | cons r rs ih =>
      obtain ⟨hstart, hrest⟩ := h
      obtain ⟨hle, hpairs⟩ := ih hrest
      refine ⟨fun r' hr' => ?_, List.pairwise_cons.mpr ⟨fun r' hr' => ?_, hpairs⟩⟩
      · rcases List.mem_cons.mp hr' with rfl | hr'
        · exact hstart.ge
        · exact (Nat.le_add_right _ _).trans (hle r' hr')
      · rw [hstart]
        exact hle r' hr'

end Ranges

/-! ## One operation -/

/-- What an operation finds of a state: the tail, the first block not recycled and the ranges. -/
def StreamState.sizes (s : StreamState) : ℕ × ℕ × List (ℕ × ℕ) :=
  (s.arena.tail, s.arena.recycled, s.ranges)

/-- **The invariant**: the blocks show what is known of the stream, the tail lies in the newest, and
the ranges are the stream up to it. -/
structure StreamState.Ok (shift : ℕ) (s : StreamState) : Prop where
  held : s.arena.Held shift s.known
  placed : s.arena.Placed shift
  floor : s.arena.recycled * blockLen shift ≤ s.arena.tail
  fresh : ∀ x, s.arena.tail ≤ x → s.known x = none
  contiguous : Contiguous 0 s.ranges s.arena.tail

section Steps

variable {shift : ℕ} {a : StreamArena} {s : StreamState} {n off j to' tag oldest : ℕ}
    {bytes : Bytes}

lemma StreamArena.Placed.tail_le (h : a.Placed shift) : a.tail ≤ a.nextBlock * blockLen shift := by
  rcases h with ⟨-, -, htail, -⟩ | ⟨-, hend, -, -, htail⟩
  · rw [htail]
    exact Nat.zero_le _
  · rwa [← hend]

/-- What a reservation leaves: the tail behind the bytes, and what was held. -/
lemma reserveContig_spec (h : s.Ok shift)
    (hroom : s.arena.tail + n ≤ ARENA_BLOCKS * blockLen shift) :
    ∃ a, s.arena.reserveContig shift n = some (a, s.arena.tail) ∧ a.Held shift s.known ∧
      a.Placed shift ∧ a.tail = s.arena.tail + n ∧ a.recycled = s.arena.recycled := by
  have hpos := blockLen_pos shift
  rw [StreamArena.reserveContig]
  by_cases hfits : n ≤ s.arena.blockEnd - s.arena.tail ∧ 0 < s.arena.blockEnd
  · rw [if_pos hfits]
    refine ⟨_, rfl, ⟨h.held.plain, h.held.free, h.held.retired, h.held.reach, h.held.there,
      h.held.shown⟩, ?_, rfl, rfl⟩
    rcases h.placed with ⟨hend, -⟩ | ⟨hnext, hend, hstart, hlo, hhi⟩
    · exact absurd hfits.2 (by omega)
    · have hin : s.arena.tail + n ≤ s.arena.blockEnd := by omega
      exact Or.inr ⟨hnext, hend, hstart, hlo.trans (Nat.le_add_right _ _), hin⟩
  · rw [if_neg hfits]
    have hleft : s.arena.nextBlock * blockLen shift + (n - (s.arena.blockEnd - s.arena.tail))
        = s.arena.tail + n ∧ s.arena.nextBlock < ARENA_BLOCKS := by
      rcases h.placed with ⟨hend, hnext, htail, -⟩ | ⟨hnext, hend, hstart, hlo, hhi⟩
      · rw [hend, hnext, htail]
        exact ⟨by omega, by decide⟩
      · have hblocks : 0 < s.arena.blockEnd := by
          rw [hend]
          exact Nat.mul_pos hnext hpos
        refine ⟨by omega, Nat.lt_of_mul_lt_mul_right (a := blockLen shift) (by omega)⟩
    obtain ⟨a, hover, hheld, hplaced, htail, hrec⟩ := reserveOver_spec h.held
      (fun x hx => h.fresh x (h.placed.tail_le.trans hx)) hleft.2 (hleft.1.le.trans hroom)
    rw [hover]
    exact ⟨_, rfl, ⟨hheld.plain, hheld.free, hheld.retired, hheld.reach, hheld.there, hheld.shown⟩,
      hplaced, htail.trans hleft.1, hrec⟩

/-- A reservation keeps the invariant. -/
lemma StreamState.Ok.reserve (h : s.Ok shift)
    (hroom : s.arena.tail + n ≤ ARENA_BLOCKS * blockLen shift) :
    ∃ s', s.step shift (.reserve n) = some s' ∧ s'.Ok shift ∧
      s'.sizes = (s.arena.tail + n, s.arena.recycled, s.ranges ++ [(s.arena.tail, n)]) := by
  obtain ⟨a, hreserve, hheld, hplaced, htail, hrec⟩ := reserveContig_spec h hroom
  refine ⟨⟨a, s.ranges ++ [(s.arena.tail, n)], s.known⟩, ?_,
    ⟨hheld, hplaced, ?_, fun x hx => ?_, ?_⟩, ?_⟩
  · rw [StreamState.step, hreserve]
    rfl
  · show a.recycled * blockLen shift ≤ a.tail
    rw [hrec, htail]
    exact h.floor.trans (Nat.le_add_right _ _)
  · have hx : a.tail ≤ x := hx
    rw [htail] at hx
    exact h.fresh x ((Nat.le_add_right _ _).trans hx)
  · show Contiguous 0 _ a.tail
    rw [htail]
    exact h.contiguous.snoc
  · rw [StreamState.sizes, htail, hrec]

/-- A write of bytes that are not recycled keeps the invariant. -/
lemma StreamState.Ok.write (h : s.Ok shift)
    (hbytes : bytes = [] ∨
    (s.arena.recycled * blockLen shift ≤ off ∧ off + bytes.length ≤ s.arena.tail)) :
    ∃ s', s.step shift (.write off bytes) = some s' ∧ s'.Ok shift ∧ s'.sizes = s.sizes := by
  rcases hbytes with rfl | ⟨hlo, hhi⟩
  · refine ⟨s, ?_, h, rfl⟩
    rw [StreamState.step, StreamArena.writeContig, dif_pos rfl, overlay_nil]
    rfl
  · obtain ⟨blocks, hwrite, hheld⟩ := writeContig_spec h.held hlo (hhi.trans h.placed.tail_le)
    refine ⟨⟨{ s.arena with blocks := blocks }, s.ranges, overlay s.known off bytes⟩, ?_,
      ⟨hheld, h.placed, h.floor, fun x hx => ?_, h.contiguous⟩, rfl⟩
    · rw [StreamState.step, hwrite]
      rfl
    · have hx : s.arena.tail ≤ x := hx
      show overlay s.known off bytes x = none
      rw [overlay, if_neg (by omega)]
      exact h.fresh x hx

/-- The block of a rewound tail has it inside, or at its end. -/
lemma StreamArena.tailBlock_spec (shift to' : ℕ) :
    StreamArena.tailBlock shift to' * blockLen shift ≤ to' ∧
    to' ≤ StreamArena.tailBlock shift to' * blockLen shift + blockLen shift ∧
    (0 < to' → StreamArena.tailBlock shift to' * blockLen shift < to') := by
  have hpos := blockLen_pos shift
  have hdiv := Nat.div_add_mod to' (blockLen shift)
  have hmod := Nat.mod_lt to' hpos
  rw [Nat.mul_comm] at hdiv
  rw [StreamArena.tailBlock]
  by_cases hedge : 0 < to' ∧ to' % blockLen shift = 0
  · rw [if_pos hedge]
    have hblock : 0 < to' / blockLen shift := by
      rcases Nat.eq_zero_or_pos (to' / blockLen shift) with hzero | hblock
      · rw [hzero] at hdiv
        omega
      · exact hblock
    have hpred : (to' / blockLen shift - 1) * blockLen shift + blockLen shift
        = to' / blockLen shift * blockLen shift := by
      rw [← Nat.succ_mul, Nat.succ_eq_add_one, Nat.sub_add_cancel hblock]
    omega
  · rw [if_neg hedge]
    omega

/-- What a rewind leaves. -/
lemma rewind_spec (h : a.Placed shift) (hto : to' ≤ a.tail) : (a.rewind shift to').Placed shift ∧
    (a.rewind shift to').tail = to' ∧ (a.rewind shift to').nextBlock ≤ a.nextBlock ∧
    ∃ used blockStart blockEnd nextBlock, a.rewind shift to' = { a with
      tail := to', used := used, blockStart := blockStart, blockEnd := blockEnd, nextBlock := nextBlock } := by
  have hpos := blockLen_pos shift
  rw [StreamArena.rewind]
  by_cases hsame : to' = a.tail
  · rw [if_pos hsame, hsame]
    exact ⟨h, rfl, le_refl _, a.used, a.blockStart, a.blockEnd, a.nextBlock, rfl⟩
  · rw [if_neg hsame]
    rcases h with ⟨-, -, htail, -⟩ | ⟨hnext, hend, hstart, hlo, hhi⟩
    · omega
    obtain ⟨hblo, hbhi, hbin⟩ := StreamArena.tailBlock_spec shift to'
    generalize StreamArena.tailBlock shift to' = b at hblo hbhi hbin
    dsimp only
    by_cases hmove : a.blockStart ≠ b * blockLen shift
    · rw [if_pos hmove]
      refine ⟨Or.inr ⟨Nat.succ_pos _, (Nat.succ_mul _ _).symm, rfl, hblo, hbhi⟩, rfl, ?_, _, _, _, _, rfl⟩
      -- a block's first byte lies before the tail, so before the next block
      show b + 1 ≤ a.nextBlock
      rcases Nat.eq_zero_or_pos to' with rfl | hpos'
      · have hb : b = 0 := by
          rcases Nat.eq_zero_or_pos b with hb | hb
          · exact hb
          · exact absurd (Nat.mul_pos hb hpos) (by omega)
        omega
      · exact Nat.lt_of_mul_lt_mul_right (a := blockLen shift) (by have := hbin hpos'; omega)
    · rw [if_neg hmove]
      rw [not_not] at hmove
      exact ⟨Or.inr ⟨hnext, hend, hstart, hmove.le.trans hblo, by show to' ≤ a.blockEnd; omega⟩,
        rfl, le_refl _, _, _, _, _, rfl⟩

/-- A rewind to where a range ended, not behind a recycled block, keeps the invariant. -/
lemma StreamState.Ok.rewind (h : s.Ok shift)
    (hfloor : s.arena.recycled * blockLen shift ≤ s.endOf j) :
    ∃ s', s.step shift (.rewind j) = some s' ∧ s'.Ok shift ∧
      s'.sizes = (s.endOf j, s.arena.recycled, s.ranges.take j) := by
  obtain ⟨hcontig, hle⟩ := h.contiguous.take j
  rw [Nat.zero_add] at hcontig hle
  obtain ⟨hplaced, htail, hnext, used, blockStart, blockEnd, nextBlock, heq⟩ :=
    rewind_spec h.placed hle
  have hrec : (s.arena.rewind shift (s.endOf j)).recycled = s.arena.recycled := by
    show (s.arena.rewind shift _).recycled = _
    rw [StreamState.endOf, heq]
  refine ⟨_, rfl, ⟨⟨?_, ?_, ?_, ?_, fun b hlo hhi => ?_, fun b mem hlo hb => ?_⟩, hplaced, ?_,
    fun x hx => ?_, ?_⟩, ?_⟩
  · show ∀ b mem, (s.arena.rewind shift (s.endOf j)).blocks b = some mem → _
    rw [StreamState.endOf, heq]
    exact h.held.plain
  · show ∀ mem ∈ (s.arena.rewind shift (s.endOf j)).free, _
    rw [StreamState.endOf, heq]
    exact h.held.free
  · show ∀ p ∈ (s.arena.rewind shift (s.endOf j)).retired, _
    rw [StreamState.endOf, heq]
    exact h.held.retired
  · refine Nat.le_of_mul_le_mul_right ?_ (blockLen_pos shift)
    show (s.arena.rewind shift (s.endOf j)).recycled * _ ≤ _
    rw [hrec]
    refine hfloor.trans ?_
    have hin := hplaced.tail_le
    rw [htail] at hin
    exact hin
  · have hlo : (s.arena.rewind shift (s.endOf j)).recycled ≤ b := hlo
    rw [hrec] at hlo
    obtain ⟨mem, hb⟩ := h.held.there b hlo (lt_of_lt_of_le hhi hnext)
    refine ⟨mem, ?_⟩
    show (s.arena.rewind shift (s.endOf j)).blocks b = some mem
    rw [StreamState.endOf, heq]
    exact hb
  · have hlo : (s.arena.rewind shift (s.endOf j)).recycled ≤ b := hlo
    have hb : (s.arena.rewind shift (s.endOf j)).blocks b = some mem := hb
    rw [hrec] at hlo
    rw [StreamState.endOf, heq] at hb
    refine (h.held.shown b mem hlo hb).mono (fun x v hv => ?_)
    have hv : (if x < s.endOf j then s.known x else none) = some v := hv
    split_ifs at hv with hx
    exact hv
  · show (s.arena.rewind shift (s.endOf j)).recycled * _ ≤ (s.arena.rewind shift (s.endOf j)).tail
    rw [hrec]
    exact hfloor.trans htail.ge
  · have hx : (s.arena.rewind shift (s.endOf j)).tail ≤ x := hx
    have hx : s.endOf j ≤ x := htail.ge.trans hx
    exact if_neg (not_lt.mpr hx)
  · show Contiguous 0 _ (s.arena.rewind shift (s.endOf j)).tail
    rw [show (s.arena.rewind shift (s.endOf j)).tail = s.endOf j from htail]
    exact hcontig
  · show ((s.arena.rewind shift (s.endOf j)).tail, (s.arena.rewind shift (s.endOf j)).recycled, _)
      = _
    rw [hrec, show (s.arena.rewind shift (s.endOf j)).tail = s.endOf j from htail]

/-- Blocks taken out. -/
lemma StreamArena.Held.takeOut {known : ℕ → Option UInt8} {last : ℕ} (tag : ℕ)
    (h : a.Held shift known)
    (hlast : last ≤ a.nextBlock) : (a.takeOut last tag).Held shift known := by
  rw [StreamArena.takeOut]
  by_cases hmore : a.recycled < last
  · rw [if_pos hmore]
    have hkept : ∀ b mem, (if a.recycled ≤ b ∧ b < last then none else a.blocks b) = some mem →
        a.blocks b = some mem := by
      intro b mem hb
      split_ifs at hb
      exact hb
    refine ⟨fun b mem hb => h.plain b mem (hkept b mem hb), h.free, fun p hp => ?_, hlast,
      fun b hlo hhi => ?_, fun b mem hlo hb => h.shown b mem (hmore.le.trans hlo) (hkept b mem hb)⟩
    · rcases List.mem_append.mp hp with hp | hp
      · exact h.retired p hp
      · obtain ⟨mem, hmem, rfl⟩ := List.mem_map.mp hp
        obtain ⟨b, -, hb⟩ := List.mem_filterMap.mp hmem
        exact h.plain b mem hb
    · obtain ⟨mem, hb⟩ := h.there b (hmore.le.trans hlo) hhi
      exact ⟨mem, (if_neg (fun hin => absurd hin.2 (not_lt.mpr hlo))).trans hb⟩
  · rw [if_neg hmore]
    exact h

/-- Memory given back. -/
lemma StreamArena.Held.reclaim {known : ℕ → Option UInt8} (oldest : ℕ) (h : a.Held shift known) :
    (a.reclaim oldest).Held shift known := by
  refine ⟨h.plain, fun mem hmem => ?_, fun p hp => h.retired p (List.mem_of_mem_filter hp), h.reach,
    h.there, h.shown⟩
  rcases List.mem_append.mp hmem with hmem | hmem
  · exact h.free mem hmem
  · obtain ⟨p, hp, rfl⟩ := List.mem_map.mp hmem
    exact h.retired p (List.mem_of_mem_filter hp)

/-- The tail's block is never taken out. -/
lemma StreamArena.Placed.last_le (h : a.Placed shift) :
    a.blockStart / blockLen shift ≤ a.nextBlock ∧
    a.blockStart / blockLen shift * blockLen shift ≤ a.tail := by
  have hdiv := Nat.div_mul_le_self a.blockStart (blockLen shift)
  rcases h with ⟨-, -, -, hstart⟩ | ⟨-, hend, hstart, hlo, -⟩
  · rw [hstart, Nat.zero_div, Nat.zero_mul]
    exact ⟨Nat.zero_le _, Nat.zero_le _⟩
  · exact ⟨Nat.le_of_mul_le_mul_right (by omega) (blockLen_pos shift), hdiv.trans hlo⟩

/-- Blocks recycled, wherever, keep the invariant. -/
lemma StreamState.Ok.recycle (h : s.Ok shift) :
    ∃ s', s.step shift (.recycle off tag oldest) = some s' ∧ s'.Ok shift := by
  obtain ⟨hnext, hstart⟩ := h.placed.last_le
  set last := min (off / blockLen shift) (s.arena.blockStart / blockLen shift) with hlast
  have hle : last ≤ s.arena.blockStart / blockLen shift := Nat.min_le_right _ _
  have hheld := (h.held.takeOut tag (hle.trans hnext)).reclaim oldest
  have hframe : (s.arena.takeOut last tag).tail = s.arena.tail ∧
      (s.arena.takeOut last tag).Placed shift ∧
      (s.arena.takeOut last tag).recycled * blockLen shift ≤ s.arena.tail := by
    rw [StreamArena.takeOut]
    split_ifs with hmore
    · exact ⟨rfl, h.placed, (Nat.mul_le_mul_right _ hle).trans hstart⟩
    · exact ⟨rfl, h.placed, h.floor⟩
  obtain ⟨htail, hplaced, hfloor⟩ := hframe
  refine ⟨_, rfl, hheld, hplaced, hfloor.trans htail.ge, fun x hx => h.fresh x (htail.ge.trans hx),
    ?_⟩
  show Contiguous 0 s.ranges (s.arena.takeOut last tag).tail
  rw [htail]
  exact h.contiguous

/-- **An operation** that meets what it needs succeeds and keeps the invariant. -/
lemma StreamState.Ok.step {op : StreamOp} (h : s.Ok shift) (hmeets : op.Meets shift s) :
    ∃ s', s.step shift op = some s' ∧ s'.Ok shift := by
  cases op with
  | reserve n =>
      obtain ⟨s', hstep, hok, -⟩ := h.reserve hmeets
      exact ⟨s', hstep, hok⟩
  | write off bytes =>
      obtain ⟨s', hstep, hok, -⟩ := h.write hmeets
      exact ⟨s', hstep, hok⟩
  | rewind j =>
      obtain ⟨s', hstep, hok, -⟩ := h.rewind hmeets
      exact ⟨s', hstep, hok⟩
  | recycle off tag oldest => exact h.recycle

/-- **A run** of operations that meet what they need. -/
lemma StreamState.Ok.run {ops : List StreamOp} (h : s.Ok shift) (hmeets : s.MeetsAll shift ops) :
    ∃ s', s.run shift ops = some s' ∧ s'.Ok shift := by
  induction ops generalizing s with
  | nil => exact ⟨s, rfl, h⟩
  | cons op ops ih =>
      obtain ⟨s₁, hstep, hok⟩ := h.step hmeets.1
      obtain ⟨s₂, hrun, hok₂⟩ := ih hok (hmeets.2 s₁ hstep)
      refine ⟨s₂, ?_, hok₂⟩
      rw [StreamState.run, List.foldlM_cons, hstep]
      exact hrun

lemma StreamState.new_ok : StreamState.new.Ok shift := by
  refine ⟨⟨fun b mem hb => absurd hb (by simp [StreamState.new, StreamArena.new]),
    fun _ h => absurd h List.not_mem_nil, fun _ h => absurd h List.not_mem_nil, le_refl _,
    fun b _ hb => absurd hb (Nat.not_lt_zero b), fun b mem _ hb =>
    absurd hb (by simp [StreamState.new, StreamArena.new])⟩, Or.inl ⟨rfl, rfl, rfl, rfl⟩, ?_,
    fun _ _ => rfl, rfl⟩
  show 0 * blockLen shift ≤ 0
  rw [Nat.zero_mul]

/-- The invariant is what is asked of the arena, and more. -/
lemma StreamState.Ok.good (h : s.Ok shift) : s.Good shift := by
  refine ⟨h.contiguous, h.contiguous.apart.2, fun off bytes hne hlo hin hhi hknown => ?_⟩
  have hpos := blockLen_pos shift
  have hlen := List.length_pos_iff.mpr hne
  have hlo' : s.arena.recycled ≤ off / blockLen shift := (Nat.le_div_iff_mul_le hpos).mpr hlo
  have hnext := h.placed.tail_le
  obtain ⟨mem, hmem⟩ := h.held.there _ hlo' ((Nat.div_lt_iff_lt_mul hpos).mpr (by omega))
  have hmemlen := h.held.plain _ mem hmem
  have hoff := Nat.div_add_mod off (blockLen shift)
  rw [Nat.mul_comm] at hoff
  have hread := (h.held.shown _ mem hlo' hmem).slice_eq hin (by rw [hmemlen, Nat.zero_add])
    (by rw [hoff]; exact hknown)
  rw [Nat.zero_add] at hread
  rw [StreamArena.slice, StreamArena.block, hmem]
  simp only [Option.bind_eq_bind, Option.bind_some, hmemlen, if_pos hin, hread]

end Steps

/-- **The arenas are what they are for.**  In every run of reservations, no sum of which wraps and
each of which makes a block or begins in its block's first unit, and of writes of parts that begin
in their range's unit, the ranges are apart, each lies in a block that is there and reads as it was
last written; and no other reservation lies in a block that is there.  In every run of a stream's
reservations, writes, rewinds and recyclings that reach behind no recycled block, the ranges that
were not rewound are the stream without a gap, and every byte that is not recycled reads as it was
last written. -/
theorem arenas_exact (shift : ℕ) :
    (∀ ops, ArenaState.new.MeetsAll ops → ∃ s, ArenaState.new.run ops = some s ∧ s.Good ∧
      ∀ n a off, s.arena.reserve n = some (a, off) →
      ((a.range off n).isSome = true ↔ s.arena.Takes n 0)) ∧
    ∀ ops, StreamState.new.MeetsAll shift ops → ∃ s, StreamState.new.run shift ops = some s ∧
      s.Good shift := by
  constructor
  · intro ops hmeets
    obtain ⟨s, hrun, hok⟩ := ArenaState.new_ok.run hmeets
    exact ⟨s, hrun, hok.good, fun n a off hr => reserve_lands_iff hok.arena hr⟩
  · intro ops hmeets
    obtain ⟨s, hrun, hok⟩ := StreamState.new_ok.run hmeets
    exact ⟨s, hrun, hok.good⟩

section Few

variable {n i p j off : ℕ} {bytes : Bytes}

/-- A run that begins with a reservation that makes a block. -/
lemma ArenaState.MeetsAll.fresh (off : ℕ) {s : ArenaState} {ops : List ArenaOp}
    (htakes : s.arena.Fresh n ∧ s.arena.Takes n 0) (hoff : s.arena.nextBlock * ARENA_BLOCK = off)
    (h : ArenaState.MeetsAll ⟨(s.arena.grow (ByteArena.capFor n)).take n,
      s.ranges ++ [(off, n)], s.known⟩ ops) : s.MeetsAll (.reserve n :: ops) := by
  subst hoff
  obtain ⟨hfresh, htakes⟩ := htakes
  refine ⟨htakes, fun s' hs' => ?_⟩
  rw [ByteArena.Takes, if_pos hfresh] at htakes
  have hs' : s.step (.reserve n) = some s' := hs'
  rw [ArenaState.step, ByteArena.reserve, if_pos hfresh, if_pos ⟨htakes.1, htakes.2.2⟩,
    Option.map_some, Option.some.injEq] at hs'
  exact hs' ▸ h

/-- What a reservation takes is no matter of the blocks' bytes. -/
lemma ByteArena.Takes.blocks {a : ByteArena} (blocks : ℕ → Option Bytes)
    (h : a.Fresh n ∧ a.Takes n 0) :
    ByteArena.Fresh { a with blocks := blocks } n ∧
    ByteArena.Takes { a with blocks := blocks } n 0 := h

/-- A run that begins with a write of a part of a range. -/
lemma ArenaState.MeetsAll.write {s : ArenaState} {ops : List ArenaOp}
    (hmeets : (ArenaOp.write i p bytes).Meets s)
    (h : ∀ blocks known, ArenaState.MeetsAll ⟨{ s.arena with blocks := blocks }, s.ranges, known⟩
    ops) : s.MeetsAll (.write i p bytes :: ops) := by
  refine ⟨hmeets, fun s' hs' => ?_⟩
  have hs' : s.step (.write i p bytes) = some s' := hs'
  simp only [ArenaState.step, Option.bind_eq_some_iff, Option.map_eq_some_iff, ByteArena.write,
    Option.bind_eq_bind] at hs'
  obtain ⟨r, -, a, ⟨q, -, ha⟩, rfl⟩ := hs'
  injection ha with ha
  subst ha
  exact h _ _

/-- A run of a stream that begins with a reservation. -/
lemma StreamState.MeetsAll.reserve {shift t r : ℕ} {rs : List (ℕ × ℕ)} {s : StreamState}
    {ops : List StreamOp} (hok : s.Ok shift) (hs : s.sizes = (t, r, rs))
    (hroom : t + n ≤ ARENA_BLOCKS * blockLen shift)
    (h : ∀ s' : StreamState, s'.Ok shift → s'.sizes = (t + n, r, rs ++ [(t, n)]) →
    s'.MeetsAll shift ops) : s.MeetsAll shift (.reserve n :: ops) := by
  obtain ⟨rfl, rfl, rfl⟩ : s.arena.tail = t ∧ s.arena.recycled = r ∧ s.ranges = rs := by
    simpa only [StreamState.sizes, Prod.mk.injEq] using hs
  refine ⟨hroom, fun s' hs' => ?_⟩
  obtain ⟨s₁, hstep, hok', hsizes⟩ := hok.reserve hroom
  have heq : s₁ = s' := Option.some.inj (hstep.symm.trans hs')
  exact h s' (heq ▸ hok') (heq ▸ hsizes)

/-- A run of a stream that begins with a write. -/
lemma StreamState.MeetsAll.write {shift t r : ℕ} {rs : List (ℕ × ℕ)} {s : StreamState}
    {ops : List StreamOp} (hok : s.Ok shift) (hs : s.sizes = (t, r, rs))
    (hlo : r * blockLen shift ≤ off) (hhi : off + bytes.length ≤ t)
    (h : ∀ s' : StreamState, s'.Ok shift → s'.sizes = (t, r, rs) → s'.MeetsAll shift ops) :
    s.MeetsAll shift (.write off bytes :: ops) := by
  obtain ⟨rfl, rfl, rfl⟩ : s.arena.tail = t ∧ s.arena.recycled = r ∧ s.ranges = rs := by
    simpa only [StreamState.sizes, Prod.mk.injEq] using hs
  refine ⟨Or.inr ⟨hlo, hhi⟩, fun s' hs' => ?_⟩
  obtain ⟨s₁, hstep, hok', hsizes⟩ := hok.write (Or.inr ⟨hlo, hhi⟩)
  have heq : s₁ = s' := Option.some.inj (hstep.symm.trans hs')
  exact h s' (heq ▸ hok') (heq ▸ hsizes)

/-- A run of a stream that begins with a rewind. -/
lemma StreamState.MeetsAll.rewind {shift t r : ℕ} {rs : List (ℕ × ℕ)} {s : StreamState}
    {ops : List StreamOp} (hok : s.Ok shift) (hs : s.sizes = (t, r, rs))
    (hlo : r * blockLen shift ≤ ((rs.take j).map Prod.snd).sum)
    (h : ∀ s' : StreamState, s'.Ok shift →
      s'.sizes = (((rs.take j).map Prod.snd).sum, r, rs.take j) →
      s'.MeetsAll shift ops) : s.MeetsAll shift (.rewind j :: ops) := by
  obtain ⟨rfl, rfl, rfl⟩ : s.arena.tail = t ∧ s.arena.recycled = r ∧ s.ranges = rs := by
    simpa only [StreamState.sizes, Prod.mk.injEq] using hs
  refine ⟨hlo, fun s' hs' => ?_⟩
  obtain ⟨s₁, hstep, hok', hsizes⟩ := hok.rewind hlo
  have heq : s₁ = s' := Option.some.inj (hstep.symm.trans hs')
  exact h s' (heq ▸ hok') (heq ▸ hsizes)

end Few

/-- Three reservations, the second of a byte more than a block, with parts of two of them written,
one of them twice; and a stream whose second reservation runs over a block's end, is written there,
rewound and made again, and whose first block is recycled. -/
theorem arenas_exact_few :
    (∃ s, ArenaState.new.run [.reserve 3, .write 0 1 [5], .reserve (ARENA_BLOCK + 1),
      .write 1 7 [1, 2], .reserve 64, .write 0 1 [6]] = some s ∧ s.Good) ∧
    ∃ s, StreamState.new.run 20 [.reserve 3, .write 1 [5], .reserve (2 ^ 20), .write (2 ^ 20 - 1) [7, 8],
      .rewind 1, .reserve (2 ^ 20), .recycle (2 ^ 20) 1 1] = some s ∧ s.Good 20 := by
  obtain ⟨hranges, hstream⟩ := arenas_exact 20
  have hmeets : ArenaState.new.MeetsAll [.reserve 3, .write 0 1 [5], .reserve (ARENA_BLOCK + 1),
      .write 1 7 [1, 2], .reserve 64, .write 0 1 [6]] := by
    set first := (ByteArena.new.grow (ByteArena.capFor 3)).take 3
    set second := (first.grow (ByteArena.capFor (ARENA_BLOCK + 1))).take (ARENA_BLOCK + 1)
    have hrange : ([] ++ [(0, 3)] ++ [(ARENA_BLOCK, ARENA_BLOCK + 1)])[1]?
      = some (ARENA_BLOCK, ARENA_BLOCK + 1) := rfl
    have hpart : (ARENA_BLOCK + 7) / ARENA_BLOCK = ARENA_BLOCK / ARENA_BLOCK := by decide
    have hfirst : first.Fresh (ARENA_BLOCK + 1) ∧ first.Takes (ARENA_BLOCK + 1) 0 := by decide
    have hoff : first.nextBlock * ARENA_BLOCK = ARENA_BLOCK := by decide
    have hoff' : second.nextBlock * ARENA_BLOCK = 3 * ARENA_BLOCK := by decide
    have hsecond : second.Fresh 64 ∧ second.Takes 64 0 := by decide
    refine ArenaState.MeetsAll.fresh 0 (by decide) (by decide) ?_
    refine ArenaState.MeetsAll.write ⟨(0, 3), rfl, by decide, by decide⟩ (fun blocks _ => ?_)
    refine ArenaState.MeetsAll.fresh ARENA_BLOCK (ByteArena.Takes.blocks blocks hfirst) hoff ?_
    refine ArenaState.MeetsAll.write ⟨_, hrange, by decide, hpart⟩ (fun blocks' _ => ?_)
    refine ArenaState.MeetsAll.fresh (3 * ARENA_BLOCK)
      (ByteArena.Takes.blocks blocks' hsecond) hoff' ?_
    exact ArenaState.MeetsAll.write ⟨(0, 3), rfl, by decide, by decide⟩ (fun _ _ => trivial)
  have hmeets' : StreamState.new.MeetsAll 20 [.reserve 3, .write 1 [5], .reserve (2 ^ 20),
      .write (2 ^ 20 - 1) [7, 8], .rewind 1, .reserve (2 ^ 20), .recycle (2 ^ 20) 1 1] := by
    refine StreamState.MeetsAll.reserve StreamState.new_ok rfl (by decide) (fun s₁ hok₁ hs₁ => ?_)
    refine StreamState.MeetsAll.write hok₁ hs₁ (by decide) (by decide) (fun s₂ hok₂ hs₂ => ?_)
    refine StreamState.MeetsAll.reserve hok₂ hs₂ (by decide) (fun s₃ hok₃ hs₃ => ?_)
    refine StreamState.MeetsAll.write hok₃ hs₃ (by decide) (by decide) (fun s₄ hok₄ hs₄ => ?_)
    refine StreamState.MeetsAll.rewind hok₄ hs₄ (by decide) (fun s₅ hok₅ hs₅ => ?_)
    exact StreamState.MeetsAll.reserve hok₅ hs₅ (by decide)
      (fun s₆ _ _ => ⟨trivial, fun _ _ => trivial⟩)
  obtain ⟨s, hrun, hgood, -⟩ := hranges _ hmeets
  exact ⟨⟨s, hrun, hgood⟩, hstream _ hmeets'⟩

end Supdb

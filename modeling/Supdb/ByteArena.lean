import Supdb.Lib.Bytes

/-!
# The byte arena

A table's keys and chunks lie in blocks that never move.  A block is `ARENA_BLOCK` bytes, or what
a larger reservation asks for; a reservation never straddles two, and an offset names its block by
a shift.  A reservation's sums are machine words, and wrap.

* `ByteArena.reserve`, `ByteArena.write`, `ByteArena.slice` – the operations, each `none` where the
  source asserts or would reach outside a block.
* `ByteArena.Ok` – the tail lies in the newest block, and no block is at or behind the next.
* `ByteArena.Holds` – the bytes at an offset, below the tail.  **Nothing written behind them moves
  them.**
* `ByteArena.Takes` – when a reservation can be written: no sum it makes wraps, and the block its
  offset names is there.  It is not where a block larger than the plain size is filled on, nor where
  a reservation ends its block and its last part is empty.
-/

namespace Supdb

open StorageLib

/-- A block's bytes, `1 << ARENA_SHIFT`. -/
def ARENA_BLOCK : ℕ := 2 ^ 22

/-- Blocks an arena can address. -/
def ARENA_BLOCKS : ℕ := 2 ^ 12

/-- An arena: its blocks by number, and the tail in the newest. -/
structure ByteArena where
  blocks : ℕ → Option Bytes
  tail : ℕ
  blockEnd : ℕ
  nextBlock : ℕ
  blockStart : ℕ
  used : ℕ

namespace ByteArena

/-- `ByteArena::new`. -/
def new : ByteArena := ⟨fun _ => none, 0, 0, 0, 0, 0⟩

/-- The longest block there can be: an allocation, whole lines of it, is no longer than
`isize::MAX`. -/
def MAX_BLOCK : ℕ := 2 ^ 63 - 64

/-- The length of the block made for `n` bytes: `block_len`, or `(n + 63) & !63` where that is more.
-/
def capFor (n : ℕ) : ℕ := max ARENA_BLOCK (addWord n 63 / 64 * 64)

/-- A block of `cap` bytes behind the ones there are.  The block's number is one the arena can
address and `cap` the length of an allocation, so that none of these sums wraps. -/
def grow (a : ByteArena) (cap : ℕ) : ByteArena :=
  { a with
    blocks := Function.update a.blocks a.nextBlock (some (List.replicate cap 0))
    tail := a.nextBlock * ARENA_BLOCK
    blockEnd := a.nextBlock * ARENA_BLOCK + cap
    nextBlock := a.nextBlock + (cap + ARENA_BLOCK - 1) / ARENA_BLOCK
    blockStart := a.nextBlock * ARENA_BLOCK }

/-- What `reserve` does once it has a block: the tail and the count go on, as words. -/
def take (a : ByteArena) (n : ℕ) : ByteArena :=
  { a with tail := addWord a.tail n, used := addWord a.used n }

/-- Whether `reserve` makes a block: the test it makes, of words. -/
def Fresh (a : ByteArena) (n : ℕ) : Prop := a.blockEnd < addWord a.tail n ∨ a.blockEnd = 0

instance (a : ByteArena) (n : ℕ) : Decidable (a.Fresh n) :=
  inferInstanceAs (Decidable (_ ∨ _))

/-- `reserve`: `n` contiguous bytes, at the offset returned. -/
def reserve (a : ByteArena) (n : ℕ) : Option (ByteArena × ℕ) :=
  if a.Fresh n then
    -- the table of blocks is full, or the layout of a block so long is refused
    if a.nextBlock < ARENA_BLOCKS ∧ capFor n ≤ MAX_BLOCK then
      let a := a.grow (capFor n)
      some (a.take n, a.tail)
    else none
  else some (a.take n, a.tail)

/-- `block`: the block of an offset, and the place inside; its assertions, the second of them of
words. -/
def block (a : ByteArena) (off len : ℕ) : Option (Bytes × ℕ) := do
  let mem ← a.blocks (off / ARENA_BLOCK)
  if addWord (off % ARENA_BLOCK) len ≤ mem.length then some (mem, off % ARENA_BLOCK) else none

/-- The bytes `block` is asked for, where they lie in the block it finds.  A sum that wraps passes
`block`'s assertion with a range that is no block's, which `write` and `slice` must not touch. -/
def range (a : ByteArena) (off len : ℕ) : Option (Bytes × ℕ) := do
  let (mem, w) ← a.block off len
  if w + len ≤ mem.length then some (mem, w) else none

/-- `write`: bytes into a reserved range. -/
def write (a : ByteArena) (off : ℕ) (bytes : Bytes) : Option ByteArena := do
  let (mem, w) ← a.range off bytes.length
  some
    { a with blocks := Function.update a.blocks (off / ARENA_BLOCK) (some (writeAt mem w bytes)) }

/-- `slice`. -/
def slice (a : ByteArena) (off len : ℕ) : Option Bytes := do
  let (mem, w) ← a.range off len
  some (StorageLib.slice mem w (w + len))

/-! ## What an arena holds -/

/-- The tail lies in the newest block, and every block is before the next. -/
structure Ok (a : ByteArena) : Prop where
  start : a.blockStart % ARENA_BLOCK = 0
  tailStart : a.blockStart ≤ a.tail
  tailEnd : a.tail ≤ a.blockEnd
  next : a.blockEnd ≤ a.nextBlock * ARENA_BLOCK
  newest : a.blockEnd ≠ 0 → ∃ mem, a.blocks (a.blockStart / ARENA_BLOCK) = some mem ∧
    a.blockEnd = a.blockStart + mem.length
  below : ∀ b, a.nextBlock ≤ b → a.blocks b = none
  last : ∀ b, a.blockStart / ARENA_BLOCK < b → a.blocks b = none
  few : ∀ b, ARENA_BLOCKS ≤ b → a.blocks b = none
  word : a.blockEnd < 2 ^ 64
  counted : a.used ≤ a.tail

/-- The bytes at an offset, whole below the tail. -/
def Holds (a : ByteArena) (off : ℕ) (bytes : Bytes) : Prop :=
  a.slice off bytes.length = some bytes ∧ off + bytes.length ≤ a.tail

/-- Whether `n` bytes can be reserved and written, the last part of them from `z` on: either a block
is made for them, and there is one to make, or they begin in the newest block's first unit.  No sum
wraps. -/
def Takes (a : ByteArena) (n z : ℕ) : Prop :=
  if a.Fresh n then a.nextBlock < ARENA_BLOCKS ∧ n + 63 < 2 ^ 64 ∧ capFor n ≤ MAX_BLOCK
  else a.tail + n < 2 ^ 64 ∧ (a.tail + z) / ARENA_BLOCK = a.blockStart / ARENA_BLOCK

instance (a : ByteArena) (n z : ℕ) : Decidable (a.Takes n z) :=
  inferInstanceAs (Decidable (if a.Fresh n then
    a.nextBlock < ARENA_BLOCKS ∧ n + 63 < 2 ^ 64 ∧ capFor n ≤ MAX_BLOCK
    else a.tail + n < 2 ^ 64 ∧ (a.tail + z) / ARENA_BLOCK = a.blockStart / ARENA_BLOCK))

/-- A range reserved, in a block that is there; its last part begins at `z`. -/
def Reserved (a : ByteArena) (off n z : ℕ) : Prop :=
  ∃ mem, a.blocks (off / ARENA_BLOCK) = some mem ∧ (off + z) / ARENA_BLOCK = off / ARENA_BLOCK ∧
    off % ARENA_BLOCK + n ≤ mem.length ∧ off + n ≤ a.tail

section Arena

variable {a a' : ByteArena} {n z off len : ℕ} {bytes x : Bytes}

lemma new_ok : new.Ok :=
  ⟨rfl, le_refl _, le_refl _, le_refl _, fun h => absurd rfl h, fun _ _ => rfl, fun _ _ => rfl,
    fun _ _ => rfl, Nat.two_pow_pos _, le_refl _⟩

lemma reserve_new {p : ByteArena × ℕ} (hp : p ∈ new.reserve n) : p.2 = 0 := by
  have hempty : new.Fresh n := Or.inr rfl
  rw [reserve, if_pos hempty] at hp
  split_ifs at hp
  · injection hp with hp
    rw [← hp]
    exact Nat.zero_mul _
  · exact absurd hp (by simp)

/-- A range in its block: the sum `block` tests does not wrap then. -/
lemma range_eq_some {mem : Bytes} {w : ℕ} :
    a.range off len = some (mem, w) ↔
      a.blocks (off / ARENA_BLOCK) = some mem ∧ w = off % ARENA_BLOCK ∧ w + len ≤ mem.length := by
  rw [range, block]
  simp only [Option.bind_eq_bind, Option.bind_eq_some_iff]
  constructor
  · rintro ⟨⟨mem', w'⟩, ⟨mem'', hmem, h⟩, h'⟩
    split_ifs at h with hword
    split_ifs at h' with hlen
    injection h with h
    injection h with h1 h2
    injection h' with h'
    injection h' with h1' h2'
    subst h1 h2 h1' h2'
    exact ⟨hmem, rfl, hlen⟩
  · rintro ⟨hmem, rfl, hlen⟩
    exact ⟨(mem, _), ⟨mem, hmem, if_pos ((addWord_le _ _).trans hlen)⟩, if_pos hlen⟩

lemma range_isSome : (a.range off len).isSome = true ↔
    ∃ mem, a.blocks (off / ARENA_BLOCK) = some mem ∧ off % ARENA_BLOCK + len ≤ mem.length := by
  rw [Option.isSome_iff_exists]
  constructor
  · rintro ⟨⟨mem, w⟩, h⟩
    obtain ⟨hmem, rfl, hin⟩ := range_eq_some.mp h
    exact ⟨mem, hmem, hin⟩
  · rintro ⟨mem, hmem, hin⟩
    exact ⟨(mem, _), range_eq_some.mpr ⟨hmem, rfl, hin⟩⟩

lemma slice_eq_some : a.slice off len = some x ↔
    ∃ mem, a.blocks (off / ARENA_BLOCK) = some mem ∧ off % ARENA_BLOCK + len ≤ mem.length ∧
      x = StorageLib.slice mem (off % ARENA_BLOCK) (off % ARENA_BLOCK + len) := by
  rw [slice, Option.bind_eq_bind, Option.bind_eq_some_iff]
  refine ⟨?_, ?_⟩
  · rintro ⟨⟨mem, w⟩, hrange, h⟩
    obtain ⟨hmem, rfl, hlen⟩ := range_eq_some.mp hrange
    injection h with h
    exact ⟨mem, hmem, hlen, h.symm⟩
  · rintro ⟨mem, hmem, hlen, rfl⟩
    exact ⟨(mem, _), range_eq_some.mpr ⟨hmem, rfl, hlen⟩, rfl⟩

lemma block_pos : 0 < ARENA_BLOCK := Nat.two_pow_pos _

/-- Where no sum wraps, the block made is as long as the bytes. -/
lemma le_capFor (h : n + 63 < 2 ^ 64) : n ≤ capFor n := by
  have hline : n ≤ alignUp n 64 := le_alignUp n (by norm_num)
  rw [capFor, addWord_of_lt h]
  exact hline.trans (Nat.le_max_right _ _)

/-- A block behind the ones there are. -/
lemma grow_ok {cap : ℕ} (h : a.Ok) (hcap : 0 < cap) (hmax : cap ≤ MAX_BLOCK)
    (hfew : a.nextBlock < ARENA_BLOCKS) : (a.grow cap).Ok := by
  have hceil : cap ≤ (cap + ARENA_BLOCK - 1) / ARENA_BLOCK * ARENA_BLOCK := by
    have h1 := Nat.div_add_mod (cap + ARENA_BLOCK - 1) ARENA_BLOCK
    have h2 := Nat.mod_lt (cap + ARENA_BLOCK - 1) block_pos
    rw [mul_comm] at h1
    omega
  have hpos : 0 < (cap + ARENA_BLOCK - 1) / ARENA_BLOCK :=
    Nat.pos_of_mul_pos_right (lt_of_lt_of_le hcap hceil)
  have hstart : (a.grow cap).blockStart / ARENA_BLOCK = a.nextBlock :=
    Nat.mul_div_cancel _ block_pos
  have hother : ∀ b, a.nextBlock < b → (a.grow cap).blocks b = none := fun b hb =>
    (Function.update_of_ne (by omega) _ _).trans (h.below b hb.le)
  refine ⟨Nat.mul_mod_left _ _, le_refl _, Nat.le_add_right _ _, ?_, fun _ => ?_,
    fun b hb => hother b ?_,
    fun b hb => hother b ?_, fun b hb => hother b (lt_of_lt_of_le hfew hb), ?_, ?_⟩
  · show a.nextBlock * ARENA_BLOCK + cap ≤ (a.nextBlock + _) * ARENA_BLOCK
    rw [add_mul]
    exact Nat.add_le_add_left hceil _
  · refine ⟨List.replicate cap 0, ?_, ?_⟩
    · rw [hstart]
      exact Function.update_self ..
    · rw [List.length_replicate]
      rfl
  · exact lt_of_lt_of_le (Nat.lt_add_of_pos_right hpos) hb
  · rwa [hstart] at hb
  · have hstart : a.nextBlock * ARENA_BLOCK ≤ ARENA_BLOCKS * ARENA_BLOCK :=
      Nat.mul_le_mul_right _ hfew.le
    simp only [ARENA_BLOCKS, ARENA_BLOCK, MAX_BLOCK] at hstart hmax
    show a.nextBlock * ARENA_BLOCK + cap < 2 ^ 64
    rw [ARENA_BLOCK]
    omega
  · exact h.counted.trans (h.tailEnd.trans h.next)

lemma take_tail (h : a.Ok) (hroom : a.tail + n ≤ a.blockEnd) : (a.take n).tail = a.tail + n :=
  addWord_of_lt (lt_of_le_of_lt hroom h.word)

lemma take_used (h : a.Ok) (hroom : a.tail + n ≤ a.blockEnd) : (a.take n).used = a.used + n :=
  addWord_of_lt (lt_of_le_of_lt ((Nat.add_le_add_right h.counted _).trans hroom) h.word)

lemma take_ok (h : a.Ok) (hroom : a.tail + n ≤ a.blockEnd) : (a.take n).Ok := by
  have htail := take_tail h hroom
  have hused := take_used h hroom
  refine ⟨h.start, ?_, ?_, h.next, h.newest, h.below, h.last, h.few, h.word, ?_⟩
  · rw [htail]
    exact h.tailStart.trans (Nat.le_add_right _ _)
  · rw [htail]
    exact hroom
  · rw [htail, hused]
    exact Nat.add_le_add_right h.counted _

/-- What an arena that has grown holds. -/
lemma Holds.grow {cap : ℕ} (h : a.Ok) (hx : a.Holds off x) : (a.grow cap).Holds off x := by
  obtain ⟨hslice, htail⟩ := hx
  obtain ⟨mem, hmem, hlen, hx⟩ := slice_eq_some.mp hslice
  have hne : off / ARENA_BLOCK ≠ a.nextBlock := by
    intro heq
    rw [heq, h.below _ (le_refl _)] at hmem
    exact absurd hmem (by simp)
  refine ⟨slice_eq_some.mpr ⟨mem, ?_, hlen, hx⟩, ?_⟩
  · show Function.update a.blocks a.nextBlock _ _ = some mem
    rw [Function.update_of_ne hne, hmem]
  · exact (htail.trans h.tailEnd).trans h.next

lemma Holds.take (h : a.Ok) (hroom : a.tail + n ≤ a.blockEnd) (hx : a.Holds off x) :
    (a.take n).Holds off x :=
  ⟨hx.1, hx.2.trans (by rw [take_tail h hroom]; exact Nat.le_add_right _ _)⟩

/-- What a reservation leaves: an arena whose tail is behind it, the bytes there are where they
were, and the range itself in a block that is there. -/
lemma reserve_spec (h : a.Ok) (htakes : a.Takes n z) (hzlt : z < ARENA_BLOCK) :
    ∃ a' off, a.reserve n = some (a', off) ∧ a'.Ok ∧ a.tail ≤ off ∧ a'.tail = off + n ∧
      a'.used = a.used + n ∧ (∀ o x, a.Holds o x → a'.Holds o x) ∧ a'.Reserved off n z := by
  by_cases hnew : a.Fresh n
  · rw [Takes, if_pos hnew] at htakes
    obtain ⟨hfew, hword, hmax⟩ := htakes
    have hblock : ARENA_BLOCK ≤ capFor n := Nat.le_max_left _ _
    have hn : n ≤ capFor n := le_capFor hword
    have hgrow : (a.grow (capFor n)).Ok := grow_ok h (lt_of_lt_of_le block_pos hblock) hmax hfew
    have hroom : (a.grow (capFor n)).tail + n ≤ (a.grow (capFor n)).blockEnd :=
      Nat.add_le_add_left hn _
    have hdiv : a.nextBlock * ARENA_BLOCK / ARENA_BLOCK = a.nextBlock :=
      Nat.mul_div_cancel _ block_pos
    refine ⟨(a.grow (capFor n)).take n, a.nextBlock * ARENA_BLOCK, ?_, take_ok hgrow hroom,
      h.tailEnd.trans h.next, take_tail hgrow hroom, take_used hgrow hroom,
      fun o x hx => (hx.grow h).take hgrow hroom, List.replicate (capFor n) 0, ?_, ?_, ?_,
      (take_tail hgrow hroom).ge⟩
    · rw [reserve, if_pos hnew, if_pos ⟨hfew, hmax⟩]
      rfl
    · rw [hdiv]
      exact Function.update_self ..
    · rw [hdiv, mul_comm, Nat.mul_add_div block_pos, Nat.div_eq_of_lt hzlt, add_zero]
    · rw [Nat.mul_mod_left, zero_add, List.length_replicate]
      exact hn
  · rw [Takes, if_neg hnew] at htakes
    obtain ⟨hword, hunit⟩ := htakes
    obtain ⟨hroom, hne⟩ := not_or.mp hnew
    have hroom : a.tail + n ≤ a.blockEnd := (addWord_of_lt hword).ge.trans (not_lt.mp hroom)
    obtain ⟨mem, hmem, hend⟩ := h.newest hne
    -- the tail lies between the block's start and the last part of the range
    have hlo : a.blockStart / ARENA_BLOCK ≤ a.tail / ARENA_BLOCK := Nat.div_le_div_right h.tailStart
    have hhi : a.tail / ARENA_BLOCK ≤ (a.tail + z) / ARENA_BLOCK :=
      Nat.div_le_div_right (Nat.le_add_right _ _)
    have heq : a.tail / ARENA_BLOCK = a.blockStart / ARENA_BLOCK := by omega
    refine ⟨a.take n, a.tail, ?_, take_ok h hroom, le_refl _, take_tail h hroom, take_used h hroom,
      fun o x hx => hx.take h hroom, mem, ?_, ?_, ?_, (take_tail h hroom).ge⟩
    · rw [reserve, if_neg hnew]
    · rw [heq]
      exact hmem
    · rw [heq]
      exact hunit
    · have h1 := Nat.div_add_mod a.tail ARENA_BLOCK
      have h2 := Nat.div_add_mod a.blockStart ARENA_BLOCK
      have h3 := h.start
      rw [heq] at h1
      omega

/-- A reservation whose bytes from `z` on lie in a block that is there took the room it needs: no
block is as long as a sum that wraps, and none lies behind the newest. -/
lemma takes_of_range {z : ℕ} (h : a.Ok) (hz : z ≤ n) (hzlt : z < ARENA_BLOCK)
    (hr : a.reserve n = some (a', off)) (hlands : (a'.range (off + z) (n - z)).isSome = true) :
    a.Takes n z := by
  obtain ⟨mem, hmem, hin⟩ := range_isSome.mp hlands
  rw [reserve] at hr
  rw [Takes]
  by_cases hnew : a.Fresh n
  · rw [if_pos hnew] at hr ⊢
    split_ifs at hr with hfew
    rw [Option.some.injEq, Prod.mk.injEq] at hr
    obtain ⟨rfl, rfl⟩ := hr
    -- the block made holds the bytes, and no allocation is so long that the sum wraps
    have hstart : (a.grow (capFor n)).tail = a.nextBlock * ARENA_BLOCK := rfl
    have hdiv : (a.nextBlock * ARENA_BLOCK + z) / ARENA_BLOCK = a.nextBlock := by
      rw [mul_comm, Nat.mul_add_div block_pos, Nat.div_eq_of_lt hzlt, add_zero]
    have hmod : (a.nextBlock * ARENA_BLOCK + z) % ARENA_BLOCK = z := by
      rw [Nat.mul_add_mod_self_right, Nat.mod_eq_of_lt hzlt]
    have hmade : Function.update a.blocks a.nextBlock (some (List.replicate (capFor n) 0))
        ((a.nextBlock * ARENA_BLOCK + z) / ARENA_BLOCK) = some mem := hmem
    rw [hdiv, Function.update_self, Option.some.injEq] at hmade
    rw [hstart, hmod, ← hmade, List.length_replicate] at hin
    have hmax := hfew.2
    rw [MAX_BLOCK] at hmax
    exact ⟨hfew.1, by omega, hfew.2⟩
  · rw [if_neg hnew, Option.some.injEq, Prod.mk.injEq] at hr
    obtain ⟨rfl, rfl⟩ := hr
    rw [if_neg hnew]
    have hmem : a.blocks ((a.tail + z) / ARENA_BLOCK) = some mem := hmem
    have hlo : a.blockStart / ARENA_BLOCK ≤ (a.tail + z) / ARENA_BLOCK :=
      Nat.div_le_div_right (h.tailStart.trans (Nat.le_add_right _ _))
    have hunit : (a.tail + z) / ARENA_BLOCK = a.blockStart / ARENA_BLOCK := by
      by_contra hne
      rw [h.last _ (lt_of_le_of_ne hlo (Ne.symm hne))] at hmem
      exact absurd hmem (by simp)
    obtain ⟨mem', hmem', hend⟩ := h.newest (not_or.mp hnew).2
    rw [hunit, hmem', Option.some.injEq] at hmem
    subst hmem
    have h1 := Nat.div_add_mod (a.tail + z) ARENA_BLOCK
    have h2 := Nat.div_add_mod a.blockStart ARENA_BLOCK
    have h3 := h.start
    have h4 := h.word
    have hin : (a.tail + z) % ARENA_BLOCK + (n - z) ≤ mem'.length := hin
    rw [hunit] at h1
    exact ⟨by omega, hunit⟩

/-- **A write** into a block that is there: the bytes are at the offset, and those before it where
they were. -/
lemma write_spec {mem : Bytes} (h : a.Ok) (hmem : a.blocks (off / ARENA_BLOCK) = some mem)
    (hroom : off % ARENA_BLOCK + bytes.length ≤ mem.length) (htail : off + bytes.length ≤ a.tail) :
    ∃ a', a.write off bytes = some a' ∧ a' = { a with blocks := a'.blocks } ∧ a'.Ok ∧
      a'.Holds off bytes ∧ (∀ o x, o + x.length ≤ off → a.Holds o x → a'.Holds o x) ∧
      ∃ mem', a'.blocks (off / ARENA_BLOCK) = some mem' ∧ mem'.length = mem.length := by
  have hlen := length_writeAt_of_le hroom
  -- a block that is not there is still not
  have hnone : ∀ b, a.blocks b = none →
      Function.update a.blocks (off / ARENA_BLOCK) (some (writeAt mem (off % ARENA_BLOCK) bytes)) b
      = none := by
    intro b hb
    rw [Function.update_of_ne, hb]
    rintro rfl
    rw [hmem] at hb
    exact absurd hb (by simp)
  let written := Function.update a.blocks (off / ARENA_BLOCK)
    (some (writeAt mem (off % ARENA_BLOCK) bytes))
  have hother : ∀ b, b ≠ off / ARENA_BLOCK → written b = a.blocks b :=
    fun b hb => Function.update_of_ne hb _ _
  refine ⟨{ a with blocks := written }, ?_, rfl, ?_, ⟨?_, htail⟩, ?_,
    writeAt mem (off % ARENA_BLOCK) bytes, Function.update_self .., hlen⟩
  · rw [write, range_eq_some.mpr ⟨hmem, rfl, hroom⟩]
    rfl
  · refine ⟨h.start, h.tailStart, h.tailEnd, h.next, fun hne => ?_,
      fun b hb => hnone b (h.below b hb),
      fun b hb => hnone b (h.last b hb), fun b hb => hnone b (h.few b hb), h.word, h.counted⟩
    obtain ⟨mem', hmem', hend⟩ := h.newest hne
    by_cases heq : a.blockStart / ARENA_BLOCK = off / ARENA_BLOCK
    · rw [heq, hmem] at hmem'
      injection hmem' with hmem'
      subst hmem'
      refine ⟨_, ?_, hend.trans (by rw [hlen])⟩
      rw [heq]
      exact Function.update_self ..
    · exact ⟨mem', (hother _ heq).trans hmem', hend⟩
  · refine slice_eq_some.mpr ⟨_, Function.update_self .., ?_, (slice_writeAt hroom).symm⟩
    rw [hlen]
    exact hroom
  · rintro o x ho ⟨hslice, htail'⟩
    obtain ⟨mem', hmem', hlen', hx⟩ := slice_eq_some.mp hslice
    refine ⟨slice_eq_some.mpr ?_, htail'⟩
    by_cases heq : o / ARENA_BLOCK = off / ARENA_BLOCK
    · rw [heq, hmem] at hmem'
      injection hmem' with hmem'
      subst hmem'
      have h1 := Nat.div_add_mod o ARENA_BLOCK
      have h2 := Nat.div_add_mod off ARENA_BLOCK
      rw [heq] at h1
      refine ⟨_, by rw [heq]; exact Function.update_self .., by rw [hlen]; exact hlen', ?_⟩
      rw [slice_writeAt_before hroom (by omega)]
      exact hx
    · exact ⟨mem', (hother _ heq).trans hmem', hlen', hx⟩

/-- A part of a range reserved written. -/
lemma Reserved.write {p : ℕ} (bytes : Bytes) (h : a.Ok) (hr : a.Reserved off n z) (hp : p ≤ z)
    (hlen : p + bytes.length ≤ n) :
    ∃ a', a.write (off + p) bytes = some a' ∧ a' = { a with blocks := a'.blocks } ∧ a'.Ok ∧
      a'.Reserved off n z ∧
      a'.Holds (off + p) bytes ∧ ∀ o x, o + x.length ≤ off + p → a.Holds o x → a'.Holds o x := by
  obtain ⟨mem, hmem, hz, hroom, htail⟩ := hr
  -- the part begins in the range's own block
  have hlo : off / ARENA_BLOCK ≤ (off + p) / ARENA_BLOCK :=
    Nat.div_le_div_right (Nat.le_add_right _ _)
  have hhi : (off + p) / ARENA_BLOCK ≤ (off + z) / ARENA_BLOCK := Nat.div_le_div_right (by omega)
  have heq : (off + p) / ARENA_BLOCK = off / ARENA_BLOCK := by omega
  have h1 := Nat.div_add_mod off ARENA_BLOCK
  have h2 := Nat.div_add_mod (off + p) ARENA_BLOCK
  rw [heq] at h2
  obtain ⟨a', hwrite, hsame, hok, hholds, hmono, mem', hmem', hlen'⟩ :=
    write_spec h (by rw [heq]; exact hmem) (by omega) (by omega : off + p + bytes.length ≤ a.tail)
  rw [heq] at hmem'
  have htail' : a'.tail = a.tail := by rw [hsame]
  exact ⟨a', hwrite, hsame, hok,
    ⟨mem', hmem', hz, by rw [hlen']; exact hroom, by rw [htail']; exact htail⟩, hholds, hmono⟩

/-- What an arena holds lies where its blocks can. -/
lemma Holds.lt (h : a.Ok) (hx : a.Holds off x) : off < ARENA_BLOCKS * ARENA_BLOCK := by
  obtain ⟨mem, hmem, -, -⟩ := slice_eq_some.mp hx.1
  by_contra hge
  rw [h.few _ ((Nat.le_div_iff_mul_le block_pos).mpr (not_lt.mp hge))] at hmem
  exact absurd hmem (by simp)

end Arena

end ByteArena

end Supdb

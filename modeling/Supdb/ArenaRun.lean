import Supdb.ByteArena
import Supdb.Lib.Overlay

/-!
# Runs of an arena

What a table does with an arena over its life: it reserves ranges, of any size, and writes parts of
them, again and again.  The state of a run is the arena, the ranges it handed out, and what each
place was last given.

* `ArenaState.Good` – what is asked of an arena: **the ranges are apart**, each **lies in a block
  that is there**, and **what a range was last given is what a read of it gives**.
* `ArenaOp.Meets` – when an operation finds what it needs.  No sum of a reservation wraps, and one
  that makes no block begins in its block's first `ARENA_BLOCK` bytes; a part of a range begins in
  the range's own unit.
* `ArenaState.Ok`, `ArenaState.Ok.step`, `ArenaState.Ok.run` – the invariant, a step of it and a
  run.
* `reserve_lands_iff` – **a reservation lies in a block that is there exactly where it meets this.**
  `reserve_strays` has two that do not: a byte behind a reservation larger than a block, and nothing
  behind one that filled its block.  `reserve_wraps` has a third: as many bytes as a word counts,
  behind one byte.
-/

namespace Supdb

open StorageLib

/-- What is done with an arena: `n` bytes reserved, or bytes written at a place of a range handed
out. -/
inductive ArenaOp where
  | reserve (n : ℕ)
  | write (i p : ℕ) (bytes : Bytes)
  deriving DecidableEq, Repr

/-- An arena, the ranges it handed out (where each begins, and its length), and what its places were
last given. -/
structure ArenaState where
  arena : ByteArena
  ranges : List (ℕ × ℕ)
  known : ℕ → Option UInt8

namespace ArenaState

/-- A new arena. -/
def new : ArenaState := ⟨.new, [], fun _ => none⟩

/-- One operation; `none` where the source asserts. -/
def step (s : ArenaState) : ArenaOp → Option ArenaState
  | .reserve n => (s.arena.reserve n).map (fun r => ⟨r.1, s.ranges ++ [(r.2, n)], s.known⟩)
  | .write i p bytes =>
      s.ranges[i]?.bind (fun r => (s.arena.write (r.1 + p) bytes).map
        (fun a => ⟨a, s.ranges, overlay s.known (r.1 + p) bytes⟩))

/-- Reservations and writes in any order, until one traps. -/
def run (s : ArenaState) (ops : List ArenaOp) : Option ArenaState := ops.foldlM step s

/-- What is asked of an arena. -/
structure Good (s : ArenaState) : Prop where
  /-- The ranges lie one behind another. -/
  apart : s.ranges.Pairwise (fun r r' => r.1 + r.2 ≤ r'.1)
  /-- Each lies in a block that is there. -/
  lands : ∀ r ∈ s.ranges, (s.arena.range r.1 r.2).isSome = true
  /-- What is known of a part of one is what is read of it. -/
  reads : ∀ r ∈ s.ranges, ∀ (p : ℕ) (bytes : Bytes), p + bytes.length ≤ r.2 →
    (r.1 + p) / ARENA_BLOCK = r.1 / ARENA_BLOCK →
    (∀ i v, bytes[i]? = some v → s.known (r.1 + p + i) = some v) →
    s.arena.slice (r.1 + p) bytes.length = some bytes

end ArenaState

/-- What an operation needs of the state it finds. -/
def ArenaOp.Meets (s : ArenaState) : ArenaOp → Prop
  | reserve n => s.arena.Takes n 0
  | write i p bytes =>
      ∃ r, s.ranges[i]? = some r ∧ p + bytes.length ≤ r.2 ∧ (r.1 + p) / ARENA_BLOCK = r.1 / ARENA_BLOCK

/-- Every operation of a run meets what it needs, in the state it finds. -/
def ArenaState.MeetsAll (s : ArenaState) : List ArenaOp → Prop
  | [] => True
  | op :: ops => op.Meets s ∧ ∀ s' ∈ s.step op, ArenaState.MeetsAll s' ops

/-! ## One operation -/

/-- **The invariant**: every range has a window of a block that is there, which shows what is known
of it. -/
structure ArenaState.Ok (s : ArenaState) : Prop where
  arena : s.arena.Ok
  ordered : s.ranges.Pairwise (fun r r' => r.1 + r.2 ≤ r'.1)
  window : ∀ r ∈ s.ranges, ∃ mem, s.arena.blocks (r.1 / ARENA_BLOCK) = some mem ∧
    r.1 % ARENA_BLOCK + r.2 ≤ mem.length ∧ r.1 + r.2 ≤ s.arena.tail ∧
    Shows s.known r.1 mem (r.1 % ARENA_BLOCK) r.2
  fresh : ∀ x, s.arena.tail ≤ x → s.known x = none

section Steps

variable {a a' : ByteArena} {s : ArenaState} {n off i p : ℕ} {bytes : Bytes}

/-- A reservation leaves the blocks there are. -/
lemma reserve_blocks (h : a.Ok) (hr : a.reserve n = some (a', off)) {b : ℕ} {mem : Bytes}
    (hb : a.blocks b = some mem) : a'.blocks b = some mem := by
  rw [ByteArena.reserve] at hr
  split_ifs at hr with hnew hfew
  · rw [Option.some.injEq, Prod.mk.injEq] at hr
    have hne : b ≠ a.nextBlock := by
      rintro rfl
      rw [h.below _ (le_refl _)] at hb
      exact absurd hb (by simp)
    rw [← hr.1]
    exact (Function.update_of_ne hne _ _).trans hb
  · rw [Option.some.injEq, Prod.mk.injEq] at hr
    rw [← hr.1]
    exact hb

/-- **A reservation lies in a block that is there** exactly where no sum of it wraps, and it makes a
block or begins in its block's first unit. -/
theorem reserve_lands_iff (h : a.Ok) (hr : a.reserve n = some (a', off)) :
    (a'.range off n).isSome = true ↔ a.Takes n 0 := by
  constructor
  · intro hlands
    exact ByteArena.takes_of_range h (Nat.zero_le _) ByteArena.block_pos hr hlands
  · intro htakes
    obtain ⟨a₁, off₁, hr₁, -, -, -, -, -, mem, hmem, -, hroom, -⟩ :=
      ByteArena.reserve_spec h htakes (by decide)
    obtain ⟨rfl, rfl⟩ := Prod.mk.inj (Option.some.inj (hr₁.symm.trans hr))
    exact ByteArena.range_isSome.mpr ⟨mem, hmem, hroom⟩

/-- A reservation that meets what it needs keeps the invariant. -/
lemma ArenaState.Ok.reserve (h : s.Ok) (htakes : s.arena.Takes n 0) :
    ∃ s', s.step (.reserve n) = some s' ∧ s'.Ok := by
  obtain ⟨a, off, hr, hok, htail, hend, -, -, mem, hmem, -, hroom, -⟩ :=
    ByteArena.reserve_spec h.arena htakes (by decide)
  have hbehind : ∀ r ∈ s.ranges, r.1 + r.2 ≤ off := by
    intro r hr
    obtain ⟨mem, -, -, hle, -⟩ := h.window r hr
    exact hle.trans htail
  refine ⟨⟨a, s.ranges ++ [(off, n)], s.known⟩, ?_, hok, ?_, fun r hmem' => ?_, fun x hx => ?_⟩
  · rw [ArenaState.step, hr]
    rfl
  · refine List.pairwise_append.mpr ⟨h.ordered, List.pairwise_singleton _ _,
      fun r hr' r' hr'' => ?_⟩
    rw [List.mem_singleton.mp hr'']
    exact hbehind r hr'
  · rcases List.mem_append.mp hmem' with hold | hnew
    · obtain ⟨mem, hmem, hroom, hle, hshows⟩ := h.window r hold
      exact ⟨mem, reserve_blocks h.arena hr hmem, hroom,
        hle.trans (htail.trans (hend ▸ Nat.le_add_right off n)), hshows⟩
    · -- nothing was written at or behind the tail
      rw [List.mem_singleton.mp hnew]
      refine ⟨mem, hmem, hroom, hend.ge, Shows.fresh (fun i hi => ?_)⟩
      exact h.fresh _ (htail.trans (Nat.le_add_right _ _))
  · have hx : off + n ≤ x := hend ▸ hx
    exact h.fresh x (by omega)

/-- A write that meets what it needs keeps the invariant. -/
lemma ArenaState.Ok.write {r : ℕ × ℕ} (h : s.Ok) (hi : s.ranges[i]? = some r)
    (hp : p + bytes.length ≤ r.2)
    (hunit : (r.1 + p) / ARENA_BLOCK = r.1 / ARENA_BLOCK) : ∃ s', s.step (.write i p bytes)
    = some s' ∧ s'.Ok := by
  have hr : r ∈ s.ranges := List.mem_of_getElem? hi
  obtain ⟨mem, hmem, hroom, htail, hshows⟩ := h.window r hr
  have h1 := Nat.div_add_mod r.1 ARENA_BLOCK
  have h2 := Nat.div_add_mod (r.1 + p) ARENA_BLOCK
  rw [hunit] at h2
  have hplace : (r.1 + p) % ARENA_BLOCK = r.1 % ARENA_BLOCK + p := by omega
  have hmem' : s.arena.blocks ((r.1 + p) / ARENA_BLOCK) = some mem := by rw [hunit]; exact hmem
  obtain ⟨a, hwrite, hsame, hok, -⟩ := @ByteArena.write_spec _ _ bytes _ h.arena hmem' (by omega)
    (by omega)
  have hblocks : a.blocks = Function.update s.arena.blocks (r.1 / ARENA_BLOCK)
      (some (writeAt mem (r.1 % ARENA_BLOCK + p) bytes)) := by
    rw [ByteArena.write, ByteArena.range_eq_some.mpr ⟨hmem', rfl, by omega⟩, hplace,
      hunit] at hwrite
    exact congrArg ByteArena.blocks (Option.some.inj hwrite).symm
  have hend : a.tail = s.arena.tail := by rw [hsame]
  have hin : r.1 % ARENA_BLOCK + p + bytes.length ≤ mem.length := by omega
  refine ⟨⟨a, s.ranges, overlay s.known (r.1 + p) bytes⟩, ?_, hok, h.ordered, fun r' hr' => ?_,
    fun x hx => ?_⟩
  · rw [ArenaState.step, hi, Option.bind_some, hwrite]
    rfl
  · obtain ⟨mem', hmem', hroom', htail', hshows'⟩ := h.window r' hr'
    by_cases hsame : r' = r
    · subst hsame
      refine ⟨_, hblocks ▸ Function.update_self .., ?_, hend ▸ htail, hshows.write hp hroom⟩
      rw [length_writeAt_of_le hin]
      exact hroom
    · -- another range is apart from the one written
      have hapart : r.1 + r.2 ≤ r'.1 ∨ r'.1 + r'.2 ≤ r.1 := by
        have hsymm : Std.Symm (fun r r' : ℕ × ℕ => r.1 + r.2 ≤ r'.1 ∨ r'.1 + r'.2 ≤ r.1) := ⟨fun _ _ => Or.symm⟩
        have hpairs := h.ordered.imp (S := fun r r' : ℕ × ℕ => r.1 + r.2 ≤ r'.1 ∨ r'.1 + r'.2 ≤ r.1) Or.inl
        exact hpairs.forall hr hr' (Ne.symm hsame)
      have h3 := Nat.div_add_mod r'.1 ARENA_BLOCK
      by_cases hblock : r'.1 / ARENA_BLOCK = r.1 / ARENA_BLOCK
      · rw [hblock, hmem, Option.some.injEq] at hmem'
        subst hmem'
        rw [hblock] at h3
        refine ⟨_, ?_, ?_, hend ▸ htail', hshows'.apart hin (by omega) (by omega)⟩
        · rw [hblocks, hblock]
          exact Function.update_self ..
        · rw [length_writeAt_of_le hin]
          exact hroom'
      · refine ⟨mem', ?_, hroom', hend ▸ htail', hshows'.elsewhere (by omega)⟩
        rw [hblocks, Function.update_of_ne hblock]
        exact hmem'
  · have hx : s.arena.tail ≤ x := hend ▸ hx
    show overlay s.known (r.1 + p) bytes x = none
    rw [overlay, if_neg (by omega)]
    exact h.fresh x hx

/-- **An operation** that meets what it needs succeeds and keeps the invariant. -/
lemma ArenaState.Ok.step {op : ArenaOp} (h : s.Ok) (hmeets : op.Meets s) :
    ∃ s', s.step op = some s' ∧ s'.Ok := by
  cases op with
  | reserve n => exact h.reserve hmeets
  | write i p bytes =>
      obtain ⟨r, hi, hp, hunit⟩ := hmeets
      exact h.write hi hp hunit

/-- **A run** of operations that meet what they need. -/
lemma ArenaState.Ok.run {ops : List ArenaOp} (h : s.Ok) (hmeets : s.MeetsAll ops) :
    ∃ s', s.run ops = some s' ∧ s'.Ok := by
  induction ops generalizing s with
  | nil => exact ⟨s, rfl, h⟩
  | cons op ops ih =>
      obtain ⟨s₁, hstep, hok⟩ := h.step hmeets.1
      obtain ⟨s₂, hrun, hok₂⟩ := ih hok (hmeets.2 s₁ hstep)
      refine ⟨s₂, ?_, hok₂⟩
      rw [ArenaState.run, List.foldlM_cons, hstep]
      exact hrun

lemma ArenaState.new_ok : ArenaState.new.Ok :=
  ⟨ByteArena.new_ok, List.Pairwise.nil, fun _ hr => absurd hr List.not_mem_nil, fun _ _ => rfl⟩

/-- The invariant is what is asked of an arena, and more. -/
lemma ArenaState.Ok.good (h : s.Ok) : s.Good := by
  refine ⟨h.ordered, fun r hr => ?_, fun r hr p bytes hp hunit hknown => ?_⟩
  · obtain ⟨mem, hmem, hroom, -, -⟩ := h.window r hr
    exact ByteArena.range_isSome.mpr ⟨mem, hmem, hroom⟩
  · obtain ⟨mem, hmem, hroom, -, hshows⟩ := h.window r hr
    have h1 := Nat.div_add_mod r.1 ARENA_BLOCK
    have h2 := Nat.div_add_mod (r.1 + p) ARENA_BLOCK
    rw [hunit] at h2
    have hplace : (r.1 + p) % ARENA_BLOCK = r.1 % ARENA_BLOCK + p := by omega
    refine ByteArena.slice_eq_some.mpr ⟨mem, by rw [hunit]; exact hmem, by omega, ?_⟩
    rw [hplace]
    exact (hshows.slice_eq hp hroom hknown).symm

end Steps

/-! ## Reservations that stray -/

lemma reserve_first {n : ℕ} (hmax : ByteArena.capFor n ≤ ByteArena.MAX_BLOCK) :
    ByteArena.new.reserve n = some ((ByteArena.new.grow (ByteArena.capFor n)).take n, 0) := by
  have hempty : ByteArena.new.Fresh n := Or.inr rfl
  rw [ByteArena.reserve, if_pos hempty, if_pos ⟨by decide, hmax⟩]
  rfl

/-- **A byte behind a range of one byte more than a block, and nothing behind a range that filled
its block**, are reserved in blocks that are not there. -/
theorem reserve_strays :
    (∃ a b, ByteArena.new.reserve (ARENA_BLOCK + 1) = some (a, 0) ∧ a.reserve 1
      = some (b, ARENA_BLOCK + 1) ∧ b.block (ARENA_BLOCK + 1) 1 = none) ∧
    ∃ a b, ByteArena.new.reserve ARENA_BLOCK = some (a, 0) ∧ a.reserve 0 = some (b, ARENA_BLOCK) ∧
      b.block ARENA_BLOCK 0 = none := by
  set a := (ByteArena.new.grow (ByteArena.capFor (ARENA_BLOCK + 1))).take (ARENA_BLOCK + 1) with ha
  set b := (ByteArena.new.grow (ByteArena.capFor ARENA_BLOCK)).take ARENA_BLOCK with hb
  have htail : a.tail = ARENA_BLOCK + 1 := by decide
  have htail' : b.tail = ARENA_BLOCK := by decide
  refine ⟨⟨a, a.take 1, reserve_first (by decide), ?_, by decide⟩,
    ⟨b, b.take 0, reserve_first (by decide), ?_, by decide⟩⟩
  · rw [ByteArena.reserve, if_neg (by decide), htail]
  · rw [ByteArena.reserve, if_neg (by decide), htail']

/-- **As many bytes as a word counts, behind one byte**: the sum wraps, so that they seem to fit,
and they lie in no block; the byte behind them is the first one again. -/
theorem reserve_wraps : ∃ a b c, ByteArena.new.reserve 1 = some (a, 0) ∧
    a.reserve (2 ^ 64 - 1) = some (b, 1) ∧ b.range 1 (2 ^ 64 - 1) = none ∧
    b.reserve 1 = some (c, 0) := by
  set a := (ByteArena.new.grow (ByteArena.capFor 1)).take 1 with ha
  have htail : a.tail = 1 := by decide
  have htail' : (a.take (2 ^ 64 - 1)).tail = 0 := by decide
  refine ⟨a, a.take (2 ^ 64 - 1), (a.take (2 ^ 64 - 1)).take 1, reserve_first (by decide),
    ?_, ?_, ?_⟩
  · rw [ByteArena.reserve, if_neg (by decide), htail]
  · refine Option.eq_none_iff_forall_ne_some.mpr (fun p hp => ?_)
    obtain ⟨hmem, -, hin⟩ := ByteArena.range_eq_some.mp hp
    have hmade : some (List.replicate (ByteArena.capFor 1) (0 : UInt8)) = some p.1 := hmem
    rw [Option.some.injEq] at hmade
    have hcap : ByteArena.capFor 1 = ARENA_BLOCK := by decide
    rw [← hmade, List.length_replicate, hcap, ARENA_BLOCK] at hin
    omega
  · rw [ByteArena.reserve, if_neg (by decide), htail']

end Supdb

import Supdb.Lib.Overlay

/-!
# The snapshot's arena

A snapshot's keys and runs lie in an arena that any thread appends to without a lock.  A reservation
is one `fetch_add` on the tail, tried again where it runs past its block's end; the first into a
block allocates it.  Blocks double: block `b` holds `2 ^ (shift + b)` bytes and starts at `(2 ^ b -
1) * 2 ^ shift`.

Numbers are machine words: the tail wraps, and so does the test a reservation makes of it.

* `SnapArena.locate`, `SnapArena.tryAt`, `SnapArena.publish`, `SnapArena.block`, `SnapArena.write`,
  `SnapArena.slice`, `SnapArena.run` – the operations, each `none` where the source asserts.
* `SnapOp`, `SnapState.step`, `SnapState.run` – **calls in any interleaving**: one atomic step of
  one call after another.
* `SnapState.Good` – what is asked: **ranges are apart**, each **lies in one block that is there**,
  what a range was last given is what a read of it gives, and **a call left alone ends within four
  tries**.
* `SnapOp.Meets` – when a try finds what it needs: the tail does not wrap over it.
* `next_fits` – **behind a try that did not fit, of twice the bytes asked for or later, the next
  fits.**
* `SnapState.Ok`, `SnapState.Ok.step`, `SnapState.Ok.run` – the invariant, a step of it and a run.
* `SnapState.Ok.good` – **a state that keeps the invariant is what is asked.**
-/

namespace Supdb

open StorageLib

/-- Blocks the arena has. -/
def SNAP_BLOCKS : ℕ := 32

/-- The smallest base block's shift. -/
def SNAP_BASE_SHIFT : ℕ := 12

/-! ## The operations -/

/-- The shift of an arena's first block, of `with_capacity`: the trailing zeros of the next power of
two, which are 64 where that power is not a word. -/
def baseShift (bytes : ℕ) : ℕ := max (Nat.clog 2 bytes) SNAP_BASE_SHIFT

/-- An arena: its blocks by number, and the tail. -/
structure SnapArena where
  shift : ℕ
  blocks : ℕ → Option Bytes
  tail : ℕ

/-- A call of `reserve`: about to try; in a block it took room of, whose pointer it looks at next;
allocating that block; returned with `n` bytes at `off`; or stopped by an assertion. -/
inductive SnapCall where
  | trying (n : ℕ)
  | landing (n off b : ℕ)
  | making (n off b : ℕ)
  | got (n off : ℕ)
  | failed
  deriving DecidableEq, Repr

namespace SnapArena

/-- `with_capacity`. -/
def withCapacity (bytes : ℕ) : SnapArena := ⟨baseShift bytes, fun _ => none, 0⟩

/-- `locate`: the block an offset falls in, and the offset within it. -/
def locate (shift off : ℕ) : ℕ × ℕ :=
  let q := addWord (shrWord off shift) 1
  -- a word without a bit has 64 leading zeros, and the block's number wraps
  let b := if q = 0 then 2 ^ 32 - 1 else q.log2
  let start := shlWord (shlWord 1 b - 1) shift
  (b, subWord off start)

/-- `cap`. -/
def cap (shift b : ℕ) : ℕ := shlWord 1 (shift + b)

/-- What a call does with the tail its `fetch_add` gave it. -/
def tryAt (a : SnapArena) (n : ℕ) : SnapCall :=
  if 2 ^ 32 - 1 < addWord a.tail n then .failed
  else
    let (b, w) := locate a.shift a.tail
    if cap a.shift b < addWord w n then .trying n
    else if b < SNAP_BLOCKS then .landing n a.tail b else .failed

/-- A block allocated and published, where none is: another thread's is kept. -/
def publish (a : SnapArena) (b : ℕ) : SnapArena :=
  match a.blocks b with
  | some _ => a
  | none =>
      { a with blocks := Function.update a.blocks b (some (List.replicate (cap a.shift b) 0)) }

/-- `block`: the block of some bytes, and the place inside. -/
def block (a : SnapArena) (off len : ℕ) : Option (Bytes × ℕ) :=
  if len = 0 then none
  else do
    let (b, w) := locate a.shift off
    let mem ← a.blocks b
    if addWord w len ≤ cap a.shift b then some (mem, w) else none

/-- `write`. -/
def write (a : SnapArena) (off : ℕ) (bytes : Bytes) : Option SnapArena :=
  if bytes = [] then some a
  else do
    let (mem, w) ← a.block off bytes.length
    some { a with blocks := Function.update a.blocks (locate a.shift off).1 (some (writeAt mem w bytes)) }

/-- `slice`. -/
def slice (a : SnapArena) (off len : ℕ) : Option Bytes :=
  if len = 0 then some []
  else do
    let (mem, w) ← a.block off len
    some (StorageLib.slice mem w (w + len))

/-- `run`: a run's count and its records. -/
def run (a : SnapArena) (off : ℕ) : Option (ℕ × Bytes) := do
  let head ← a.slice off 8
  let v ← a.slice (off + 8) (leNat (head.drop 4))
  some (leNat (head.take 4), v)

end SnapArena

/-! ## Interleavings -/

/-- One step of a thread: a call of `reserve` begun, its `fetch_add` and what it tests of it, its
load of the block's pointer, its allocation and `compare_exchange`; or bytes written at a place of
the range a call returned. -/
inductive SnapOp where
  | call (n : ℕ)
  | take (i : ℕ)
  | look (i : ℕ)
  | publish (i : ℕ)
  | write (i p : ℕ) (bytes : Bytes)
  deriving DecidableEq, Repr

/-- The arena, the calls by number, and what each place was last given. -/
structure SnapState where
  arena : SnapArena
  calls : List SnapCall
  known : ℕ → Option UInt8

namespace SnapState

/-- A new arena. -/
def new (bytes : ℕ) : SnapState := ⟨.withCapacity bytes, [], fun _ => none⟩

/-- One step; `none` where the call is not at it, or the source asserts.  A call for no bytes loads
the tail. -/
def step (s : SnapState) : SnapOp → Option SnapState
  | .call n =>
      if n < 2 ^ 64 then
        some { s with calls := s.calls ++ [if n = 0 then .got 0 (s.arena.tail % 2 ^ 32) else .trying n] }
      else none
  | .take i =>
      match s.calls[i]? with
      | some (.trying n) =>
          some ⟨{ s.arena with tail := addWord s.arena.tail n }, s.calls.set i (s.arena.tryAt n), s.known⟩
      | _ => none
  | .look i =>
      match s.calls[i]? with
      | some (.landing n off b) =>
          some { s with calls := s.calls.set i (if (s.arena.blocks b).isSome then .got n (off % 2 ^ 32) else .making n off b) }
      | _ => none
  | .publish i =>
      match s.calls[i]? with
      | some (.making n off b) => some ⟨s.arena.publish b, s.calls.set i (.got n (off % 2 ^ 32)), s.known⟩
      | _ => none
  | .write i p bytes =>
      match s.calls[i]? with
      | some (.got n off) =>
          if p + bytes.length ≤ n then
            (s.arena.write (off + p) bytes).map (fun a => ⟨a, s.calls, overlay s.known (off + p) bytes⟩)
          else none
      | _ => none

/-- The loads and exchanges of any threads, interleaved. -/
def run (s : SnapState) (ops : List SnapOp) : Option SnapState := ops.foldlM step s

/-- What is asked of the arena. -/
structure Good (s : SnapState) : Prop where
  /-- The ranges returned are apart. -/
  apart : ∀ (i j : ℕ) n off n' off', i ≠ j → s.calls[i]? = some (.got n off) →
    s.calls[j]? = some (.got n' off') → 0 < n → 0 < n' → off + n ≤ off' ∨ off' + n' ≤ off
  /-- Each lies in one block that is there. -/
  lands : ∀ (i : ℕ) n off, s.calls[i]? = some (.got n off) → 0 < n → ∃ mem w, w + n ≤ mem.length ∧
    ∀ p len, 0 < len → p + len ≤ n → s.arena.block (off + p) len = some (mem, w + p)
  /-- What is known of a part of one is what is read of it. -/
  reads : ∀ (i : ℕ) n off, s.calls[i]? = some (.got n off) → ∀ (p : ℕ) (bytes : Bytes),
    p + bytes.length ≤ n →
    (∀ x v, bytes[x]? = some v → s.known (off + p + x) = some v) →
    s.arena.slice (off + p) bytes.length = some bytes
  /-- A call left alone ends within four tries, and takes no more than four times what it asks for.
  -/
  tries : ∀ (i : ℕ) n, s.calls[i]? = some (.trying n) → s.arena.tail + n < 2 ^ 64 →
    ∃ k s', 1 ≤ k ∧ k ≤ 4 ∧ s.run (List.replicate k (.take i)) = some s' ∧
      s'.arena.tail = s.arena.tail + k * n ∧ s'.calls[i]? ≠ some (.trying n)

end SnapState

/-- What a step needs of the state it finds: a try, that the tail does not wrap over it. -/
def SnapOp.Meets (s : SnapState) : SnapOp → Prop
  | take i => ∀ n, s.calls[i]? = some (.trying n) → s.arena.tail + n < 2 ^ 64
  | _ => True

/-- Every step of a run meets what it needs, in the state it finds. -/
def SnapState.MeetsAll (s : SnapState) : List SnapOp → Prop
  | [] => True
  | op :: ops => op.Meets s ∧ ∀ s' ∈ s.step op, SnapState.MeetsAll s' ops

instance SnapOp.decidableMeets (s : SnapState) : (op : SnapOp) → Decidable (op.Meets s)
  | .take i =>
      match h : s.calls[i]? with
      | some (.trying n) => decidable_of_iff (s.arena.tail + n < 2 ^ 64)
          ⟨fun hlt m hm => by cases h.symm.trans hm; exact hlt, fun hall => hall n h⟩
      | some (.landing ..) | some (.making ..) | some (.got ..) | some .failed | none =>
          .isTrue fun m hm => by cases h.symm.trans hm
  | .call _ | .look _ | .publish _ | .write .. => .isTrue trivial

instance SnapState.decidableMeetsAll : (ops : List SnapOp) → (s : SnapState) →
    Decidable (s.MeetsAll ops)
  | [], _ => .isTrue trivial
  | op :: ops, s =>
      have : DecidablePred (fun s' => SnapState.MeetsAll s' ops) := SnapState.decidableMeetsAll ops
      inferInstanceAs (Decidable (op.Meets s ∧ ∀ s' ∈ s.step op, SnapState.MeetsAll s' ops))

/-! ## Where an offset lies -/

/-- Where block `b` starts. -/
def snapStart (shift b : ℕ) : ℕ := (2 ^ b - 1) * 2 ^ (shift % 64)

/-- What block `b` holds. -/
def snapCap (shift b : ℕ) : ℕ := 2 ^ (shift % 64 + b)

section Locate

variable {shift off b w n : ℕ}

lemma snapCap_pos (shift b : ℕ) : 0 < snapCap shift b := Nat.two_pow_pos _

/-- A block ends where the next starts. -/
lemma snapStart_succ (shift b : ℕ) : snapStart shift b + snapCap shift b
    = snapStart shift (b + 1) := by
  rw [snapStart, snapStart, snapCap, Nat.add_comm (shift % 64), pow_add, ← Nat.add_mul]
  have hpos := Nat.two_pow_pos b
  congr 1
  omega

lemma snapStart_mono (shift : ℕ) : Monotone (snapStart shift) :=
  monotone_nat_of_le_succ (fun b => (Nat.le_add_right _ _).trans_eq (snapStart_succ shift b))

/-- A block starts behind as many bytes as it holds, less the first block's. -/
lemma snapStart_lt_cap (shift b : ℕ) : snapStart shift b < snapCap shift b := by
  rw [snapStart, snapCap, Nat.add_comm (shift % 64), pow_add]
  have hpos := Nat.two_pow_pos b
  exact Nat.mul_lt_mul_of_pos_right (by omega) (Nat.two_pow_pos _)

/-- A block's bytes and the first block's are words, where the block starts at an offset. -/
lemma snapCap_lt (hoff : snapStart shift b < 2 ^ 32) : snapCap shift b < 2 ^ 64 ∧
    shift % 64 + b < 64 := by
  have hmod : shift % 64 ≤ 63 := by omega
  have hunit : 2 ^ (shift % 64) ≤ 2 ^ 63 := Nat.pow_le_pow_right (by decide) hmod
  have hcap : snapCap shift b = snapStart shift b + 2 ^ (shift % 64) := by
    rw [snapStart, snapCap, Nat.add_comm (shift % 64), pow_add, Nat.sub_mul, Nat.one_mul]
    have hle : 2 ^ (shift % 64) ≤ 2 ^ b * 2 ^ (shift % 64) :=
      Nat.le_mul_of_pos_left _ (Nat.two_pow_pos b)
    omega
  have hlt : snapCap shift b < 2 ^ 64 := by
    rw [hcap]
    omega
  exact ⟨hlt, (Nat.pow_lt_pow_iff_right (by decide)).mp hlt⟩

lemma cap_eq (hoff : snapStart shift b < 2 ^ 32) : SnapArena.cap shift b = snapCap shift b := by
  obtain ⟨hlt, hbits⟩ := snapCap_lt hoff
  have hmod : (shift + b) % 64 = shift % 64 + b := by omega
  rw [SnapArena.cap, shlWord, hmod, Nat.one_mul]
  exact Nat.mod_eq_of_lt hlt

/-- **An offset inside a block** is located there. -/
lemma locate_eq (hoff : snapStart shift b + w < 2 ^ 32) (hw : w < snapCap shift b) :
    SnapArena.locate shift (snapStart shift b + w) = (b, w) := by
  obtain ⟨-, hbits⟩ := snapCap_lt (lt_of_le_of_lt (Nat.le_add_right _ w) hoff)
  set e := shift % 64 with he
  have hunit : 0 < 2 ^ e := Nat.two_pow_pos e
  have hb := Nat.two_pow_pos b
  -- the quotient has `b` for its highest bit
  have hdiv : w / 2 ^ e < 2 ^ b := by
    refine Nat.div_lt_of_lt_mul ?_
    rw [← pow_add]
    exact hw
  have hquot : (snapStart shift b + w) / 2 ^ e = (2 ^ b - 1) + w / 2 ^ e := by
    rw [snapStart, Nat.add_comm, Nat.add_mul_div_right _ _ hunit, Nat.add_comm]
  have hle : (snapStart shift b + w) / 2 ^ e ≤ snapStart shift b + w := Nat.div_le_self _ _
  have hq : addWord (shrWord (snapStart shift b + w) shift) 1 = 2 ^ b + w / 2 ^ e := by
    rw [hquot] at hle
    rw [addWord, shrWord, ← he, hquot]
    generalize w / 2 ^ e = c at hle hdiv ⊢
    generalize 2 ^ b = d at hle hdiv hb ⊢
    rw [Nat.mod_eq_of_lt (by omega)]
    omega
  generalize w / 2 ^ e = c at hdiv hq
  have hne : 2 ^ b + c ≠ 0 := by omega
  have hlog : (2 ^ b + c).log2 = b := by
    rw [Nat.log2_eq_iff hne, pow_succ]
    omega
  have hone : shlWord 1 b = 2 ^ b := by
    rw [shlWord, Nat.one_mul, Nat.mod_eq_of_lt (by omega : b < 64)]
    exact Nat.mod_eq_of_lt (Nat.pow_lt_pow_right (by decide) (by omega))
  have hstart : shlWord (2 ^ b - 1) shift = snapStart shift b := by
    rw [shlWord]
    exact Nat.mod_eq_of_lt (lt_trans (lt_of_le_of_lt (Nat.le_add_right _ w) hoff) (by decide))
  rw [SnapArena.locate]
  simp only [hq, if_neg hne, hlog, hone, hstart, subWord, Prod.mk.injEq, true_and]
  omega

/-- **Every offset lies in a block**, one of those the arena has. -/
lemma exists_block (shift : ℕ) (hoff : off + 1 < 2 ^ 32) :
    ∃ b w, off = snapStart shift b + w ∧ w < snapCap shift b ∧ b < SNAP_BLOCKS := by
  set e := shift % 64 with he
  set q := off / 2 ^ e + 1 with hq
  have hunit : 0 < 2 ^ e := Nat.two_pow_pos e
  obtain ⟨hlo, hhi⟩ := (Nat.log2_eq_iff (Nat.succ_ne_zero _ : q ≠ 0)).mp rfl
  set b := q.log2 with hb
  have hmod := Nat.div_add_mod off (2 ^ e)
  have hrem := Nat.mod_lt off hunit
  have hstart : snapStart shift b ≤ off := by
    rw [snapStart, ← he]
    calc (2 ^ b - 1) * 2 ^ e ≤ off / 2 ^ e * 2 ^ e := Nat.mul_le_mul_right _ (by omega)
      _ ≤ off := Nat.div_mul_le_self _ _
  have hend : off < snapStart shift (b + 1) := by
    rw [snapStart, ← he]
    calc off < (off / 2 ^ e + 1) * 2 ^ e := by
          rw [Nat.mul_comm, Nat.mul_add]
          omega
      _ ≤ (2 ^ (b + 1) - 1) * 2 ^ e := Nat.mul_le_mul_right _ (by omega)
  rw [← snapStart_succ] at hend
  refine ⟨b, off - snapStart shift b, by omega, by omega, ?_⟩
  have hle : off / 2 ^ e ≤ off := Nat.div_le_self _ _
  have hpow : 2 ^ b < 2 ^ SNAP_BLOCKS := lt_of_le_of_lt hlo (by rw [SNAP_BLOCKS]; omega)
  exact (Nat.pow_lt_pow_iff_right (by decide)).mp hpow

/-! ## Tries -/

/-- A try at an offset runs past its block's end. -/
def Misses (shift off n : ℕ) : Prop :=
  ∃ b w, off = snapStart shift b + w ∧ w < snapCap shift b ∧ snapCap shift b < w + n

/-- **Behind a try that did not fit, of twice the bytes asked for or later, the next fits.**  The
next block begins before the next try, and the block before it ends behind the first two of the
tries' bytes: it is as large as they are. -/
lemma next_fits (hlate : 2 * n ≤ off) (hmiss : Misses shift off n) :
    ¬ Misses shift (off + n) n := by
  rintro ⟨b', w', hoff', hw', hmiss'⟩
  obtain ⟨b, w, hoff, hw, hmiss⟩ := hmiss
  have hends := snapStart_succ shift b
  have hends' := snapStart_succ shift b'
  -- the block of the next try is a later one
  have hnext : b + 1 ≤ b' := by
    by_contra hlt
    have hle := snapStart_mono shift (by omega : b' + 1 ≤ b + 1)
    omega
  have hstart := snapStart_mono shift hnext
  have hcap := snapStart_lt_cap shift b'
  omega

/-- What a call does with its tail, read off the block the tail lies in. -/
lemma tryAt_eq {a : SnapArena} (hoff : a.tail = snapStart a.shift b + w)
    (hw : w < snapCap a.shift b) (hb : b < SNAP_BLOCKS) (hsmall : a.tail + n < 2 ^ 32) :
    a.tryAt n = if snapCap a.shift b < w + n then .trying n else .landing n a.tail b := by
  have hlt : snapStart a.shift b + w < 2 ^ 32 := by omega
  have hsum : addWord a.tail n = a.tail + n := Nat.mod_eq_of_lt (by omega)
  have hroom : addWord w n = w + n := Nat.mod_eq_of_lt (by omega)
  rw [SnapArena.tryAt, hsum, if_neg (by omega)]
  simp only [hoff, locate_eq hlt hw, cap_eq (show snapStart a.shift b < 2 ^ 32 by omega), hroom,
    if_pos hb]

/-- **A try** that the tail does not wrap over: it is stopped by the assertion on what the arena
addresses, or runs past its block's end, or lands. -/
lemma tryAt_cases {a : SnapArena} (hn : 0 < n) (hwrap : a.tail + n < 2 ^ 64) :
    a.tryAt n = .failed ∨ a.tail + n < 2 ^ 32 ∧ (a.tryAt n = .trying n ∧ Misses a.shift a.tail n ∨
      ∃ b w, a.tryAt n = .landing n a.tail b ∧ a.tail = snapStart a.shift b + w ∧
        w + n ≤ snapCap a.shift b ∧ b < SNAP_BLOCKS) := by
  by_cases hsmall : a.tail + n < 2 ^ 32
  · obtain ⟨b, w, hoff, hw, hb⟩ := exists_block a.shift (by omega : a.tail + 1 < 2 ^ 32)
    have htry := tryAt_eq hoff hw hb hsmall
    refine Or.inr ⟨hsmall, ?_⟩
    by_cases hmiss : snapCap a.shift b < w + n
    · rw [if_pos hmiss] at htry
      exact Or.inl ⟨htry, b, w, hoff, hw, hmiss⟩
    · rw [if_neg hmiss] at htry
      exact Or.inr ⟨b, w, htry, hoff, not_lt.mp hmiss, hb⟩
  · left
    have hsum : addWord a.tail n = a.tail + n := Nat.mod_eq_of_lt hwrap
    rw [SnapArena.tryAt, hsum, if_pos (by omega)]

end Locate

/-! ## What a state holds -/

/-- The bytes a call took room for, where they begin and how many, once they lie in a block. -/
def SnapCall.range : SnapCall → Option (ℕ × ℕ)
  | landing n off _ => some (off, n)
  | making n off _ => some (off, n)
  | got n off => if n = 0 then none else some (off, n)
  | _ => none

/-- Two calls' bytes are apart. -/
def SnapCall.Apart (c c' : SnapCall) : Prop :=
  ∀ r ∈ c.range, ∀ r' ∈ c'.range, r.1 + r.2 ≤ r'.1 ∨ r'.1 + r'.2 ≤ r.1

namespace SnapState

/-- Bytes taken of a block. -/
structure Inside (s : SnapState) (n off b w : ℕ) : Prop where
  start : off = snapStart s.arena.shift b + w
  room : w + n ≤ snapCap s.arena.shift b
  taken : off + n ≤ s.arena.tail
  small : off + n < 2 ^ 32
  pos : 0 < n

/-- What holds of a call: bytes it has not returned yet are of a block the arena has room for and
were never written; those it returned are a window of a block that is there, which shows what is
known of them. -/
def Placed (s : SnapState) : SnapCall → Prop
  | .trying n => 0 < n
  | .landing n off b =>
      (∃ w, s.Inside n off b w) ∧ b < SNAP_BLOCKS ∧ ∀ x < n, s.known (off + x) = none
  | .making n off b =>
      (∃ w, s.Inside n off b w) ∧ b < SNAP_BLOCKS ∧ ∀ x < n, s.known (off + x) = none
  | .got n off => 0 < n → ∃ b w mem, s.Inside n off b w ∧ s.arena.blocks b = some mem ∧ Shows s.known off mem w n
  | .failed => True

/-- **The invariant**: what is handed out is apart, inside its blocks, and as written. -/
structure Ok (s : SnapState) : Prop where
  plain : ∀ b mem, s.arena.blocks b = some mem → mem.length = snapCap s.arena.shift b
  placed : ∀ c ∈ s.calls, s.Placed c
  apart : ∀ (i j : ℕ) c c', i ≠ j → s.calls[i]? = some c → s.calls[j]? = some c' → c.Apart c'
  fresh : ∀ x, s.arena.tail ≤ x → s.known x = none

end SnapState

section Steps

variable {s s' : SnapState} {c c' : SnapCall} {calls : List SnapCall} {i n off b w : ℕ} {r : ℕ × ℕ}

lemma SnapCall.Apart.symm (h : c.Apart c') : c'.Apart c := fun r' hr' r hr => (h r hr r' hr').symm

/-- A call that takes no more than it did is as far apart. -/
lemma SnapCall.Apart.mono {c₀ : SnapCall} (h : c.Apart c') (hrange : ∀ r ∈ c₀.range, r ∈ c.range) :
    c₀.Apart c' :=
  fun r hr r' hr' => h r (hrange r hr) r' hr'

/-- Calls of which one has made a step. -/
lemma apart_set (h : ∀ (i j : ℕ) c c', i ≠ j → calls[i]? = some c → calls[j]? = some c' →
    c.Apart c') (hstep : ∀ (j : ℕ) c', j ≠ i → calls[j]? = some c' → c.Apart c') (j k : ℕ)
    (d d' : SnapCall) (hne : j ≠ k)
    (hj : (calls.set i c)[j]? = some d) (hk : (calls.set i c)[k]? = some d') : d.Apart d' := by
  by_cases hij : i = j
  · subst hij
    rw [List.getElem?_set_ne hne] at hk
    have hlt : i < calls.length := by
      have hlen := (List.getElem?_eq_some_iff.mp hj).1
      rwa [List.length_set] at hlen
    rw [List.getElem?_set_self hlt, Option.some.injEq] at hj
    rw [← hj]
    exact hstep k d' hne.symm hk
  · rw [List.getElem?_set_ne hij] at hj
    by_cases hik : i = k
    · subst hik
      have hlt : i < calls.length := by
        have hlen := (List.getElem?_eq_some_iff.mp hk).1
        rwa [List.length_set] at hlen
      rw [List.getElem?_set_self hlt, Option.some.injEq] at hk
      rw [← hk]
      exact (hstep j d hne hj).symm
    · rw [List.getElem?_set_ne hik] at hk
      exact h j k d d' hne hj hk

/-- What a call took lies below the tail. -/
lemma SnapState.Ok.range_le (h : s.Ok) (hc : c ∈ s.calls) (hr : r ∈ c.range) :
    r.1 + r.2 ≤ s.arena.tail := by
  have hplaced := h.placed c hc
  cases c with
  | trying n => exact absurd hr (by simp [SnapCall.range])
  | failed => exact absurd hr (by simp [SnapCall.range])
  | landing n off b =>
      obtain ⟨⟨w, hin⟩, -⟩ := hplaced
      rw [← Option.mem_some_iff.mp hr]
      exact hin.taken
  | making n off b =>
      obtain ⟨⟨w, hin⟩, -⟩ := hplaced
      rw [← Option.mem_some_iff.mp hr]
      exact hin.taken
  | got n off =>
      rw [SnapCall.range] at hr
      split_ifs at hr with hzero
      · exact absurd hr (by simp)
      · obtain ⟨b, w, mem, hin, -⟩ := hplaced (Nat.pos_of_ne_zero hzero)
        rw [← Option.mem_some_iff.mp hr]
        exact hin.taken

/-- What holds of a call still holds where the tail has moved on, no block is gone, and nothing more
is known. -/
lemma SnapState.Placed.mono (h : s.Placed c) (hshift : s'.arena.shift = s.arena.shift)
    (htail : s.arena.tail ≤ s'.arena.tail) (hknown : s'.known = s.known)
    (hblocks : ∀ b mem, s.arena.blocks b = some mem → s'.arena.blocks b = some mem) :
    s'.Placed c := by
  have hinside : ∀ {n off b w}, s.Inside n off b w → s'.Inside n off b w := fun hin =>
    ⟨by rw [hshift]; exact hin.start, by rw [hshift]; exact hin.room, hin.taken.trans htail, hin.small, hin.pos⟩
  cases c with
  | trying n => exact h
  | failed => exact h
  | landing n off b =>
      obtain ⟨⟨w, hin⟩, hb, hnone⟩ := h
      exact ⟨⟨w, hinside hin⟩, hb, by rwa [hknown]⟩
  | making n off b =>
      obtain ⟨⟨w, hin⟩, hb, hnone⟩ := h
      exact ⟨⟨w, hinside hin⟩, hb, by rwa [hknown]⟩
  | got n off =>
      intro hpos
      obtain ⟨b, w, mem, hin, hmem, hshows⟩ := h hpos
      exact ⟨b, w, mem, hinside hin, hblocks b mem hmem, by rwa [hknown]⟩

/-! ### What a step can do -/

lemma step_take (h : s.step (.take i) = some s') : ∃ n, s.calls[i]? = some (.trying n) ∧
    s' = ⟨{ s.arena with tail := addWord s.arena.tail n }, s.calls.set i (s.arena.tryAt n),
    s.known⟩ := by
  rw [SnapState.step] at h
  split at h
  · exact ⟨_, ‹_›, (Option.some.inj h).symm⟩
  · exact absurd h (by simp)

lemma step_look (h : s.step (.look i) = some s') :
    ∃ n off b, s.calls[i]? = some (.landing n off b) ∧
    s' = ⟨s.arena, s.calls.set i (if (s.arena.blocks b).isSome then .got n (off % 2 ^ 32) else .making n off b),
      s.known⟩ := by
  rw [SnapState.step] at h
  split at h
  · exact ⟨_, _, _, ‹_›, (Option.some.inj h).symm⟩
  · exact absurd h (by simp)

lemma step_publish (h : s.step (.publish i) = some s') :
    ∃ n off b, s.calls[i]? = some (.making n off b) ∧
    s' = ⟨s.arena.publish b, s.calls.set i (.got n (off % 2 ^ 32)), s.known⟩ := by
  rw [SnapState.step] at h
  split at h
  · exact ⟨_, _, _, ‹_›, (Option.some.inj h).symm⟩
  · exact absurd h (by simp)

lemma step_write {p : ℕ} {bytes : Bytes} (h : s.step (.write i p bytes) = some s') :
    ∃ n off a, s.calls[i]? = some (.got n off) ∧ p + bytes.length ≤ n ∧
      s.arena.write (off + p) bytes = some a ∧
      s' = ⟨a, s.calls, overlay s.known (off + p) bytes⟩ := by
  rw [SnapState.step] at h
  split at h
  · rename_i n off hcall
    split_ifs at h with hroom
    obtain ⟨a, hwrite, rfl⟩ := Option.map_eq_some_iff.mp h
    exact ⟨n, off, a, hcall, hroom, hwrite, rfl⟩
  · exact absurd h (by simp)

/-! ### Steps that keep it -/

lemma SnapState.new_ok (bytes : ℕ) : (SnapState.new bytes).Ok := by
  refine ⟨fun b mem hb => ?_, fun c hc => absurd hc List.not_mem_nil, fun i j c c' hne hi => ?_,
    fun x hx => rfl⟩
  · exact absurd hb (by simp [SnapState.new, SnapArena.withCapacity])
  · exact absurd hi (by simp [SnapState.new])

/-- A thread that begins a call has taken nothing yet. -/
lemma SnapState.Ok.call (h : s.Ok) (hstep : s.step (.call n) = some s') : s'.Ok := by
  have hword : n < 2 ^ 64 := by
    by_contra hword
    rw [SnapState.step, if_neg hword] at hstep
    exact absurd hstep (by simp)
  rw [SnapState.step, if_pos hword, Option.some.injEq] at hstep
  subst hstep
  set c₀ : SnapCall := if n = 0 then .got 0 (s.arena.tail % 2 ^ 32) else .trying n with hc₀
  have hrange : c₀.range = none := by
    rw [hc₀]
    split_ifs <;> rfl
  have hplaced : s.Placed c₀ := by
    rw [hc₀]
    split_ifs with hzero
    · exact fun hpos => absurd hpos (lt_irrefl _)
    · exact Nat.pos_of_ne_zero hzero
  refine ⟨h.plain, fun c hc => ?_, fun i j c c' hne hi hj => ?_, h.fresh⟩
  · refine SnapState.Placed.mono (s := s) ?_ rfl (le_refl _) rfl (fun _ _ hb => hb)
    rcases List.mem_append.mp hc with hc | hc
    · exact h.placed c hc
    · rw [List.mem_singleton.mp hc]
      exact hplaced
  · intro r hr r' hr'
    have hold : ∀ (k : ℕ) d, (s.calls ++ [c₀])[k]? = some d → s.calls[k]? = some d ∨ d = c₀ := by
      intro k d hk
      rw [List.getElem?_append] at hk
      split_ifs at hk with hlt
      · exact Or.inl hk
      · exact Or.inr (List.mem_singleton.mp (List.mem_of_getElem? hk))
    rcases hold i c hi with hi | rfl
    · rcases hold j c' hj with hj | rfl
      · exact h.apart i j c c' hne hi hj r hr r' hr'
      · rw [hrange] at hr'
        exact absurd hr' (by simp)
    · rw [hrange] at hr
      exact absurd hr (by simp)

/-- **A try**: its bytes lie behind all that were taken. -/
lemma SnapState.Ok.take (h : s.Ok) (hmeets : (SnapOp.take i).Meets s)
    (hstep : s.step (.take i) = some s') : s'.Ok := by
  obtain ⟨n, hcall, rfl⟩ := step_take hstep
  have hwrap := hmeets n hcall
  have hn : 0 < n := h.placed _ (List.mem_of_getElem? hcall)
  rw [show addWord s.arena.tail n = s.arena.tail + n from Nat.mod_eq_of_lt hwrap]
  have hfresh : ∀ x < n, s.known (s.arena.tail + x) = none :=
    fun x _ => h.fresh _ (Nat.le_add_right _ _)
  have htry := tryAt_cases hn hwrap
  refine ⟨h.plain, fun c hc => ?_, apart_set h.apart ?_,
    fun x hx => h.fresh x ((Nat.le_add_right _ _).trans hx)⟩
  · refine SnapState.Placed.mono
      (s := ⟨{ s.arena with tail := s.arena.tail + n }, s.calls, s.known⟩) ?_ rfl (le_refl _) rfl
      (fun _ _ hb => hb)
    rcases List.mem_or_eq_of_mem_set hc with hc | rfl
    · exact (h.placed c hc).mono rfl (Nat.le_add_right _ _) rfl (fun _ _ hb => hb)
    · rcases htry with hfail | ⟨hsmall, ⟨hagain, -⟩ | ⟨b, w, hland, hstart, hroom, hb⟩⟩
      · rw [hfail]
        trivial
      · rw [hagain]
        exact hn
      · rw [hland]
        exact ⟨⟨w, hstart, hroom, le_refl _, hsmall, hn⟩, hb, hfresh⟩
  · intro j c' hne hj r hr r' hr'
    have hbelow := h.range_le (List.mem_of_getElem? hj) hr'
    rcases htry with hfail | ⟨-, ⟨hagain, -⟩ | ⟨b, w, hland, -⟩⟩
    · rw [hfail] at hr
      exact absurd hr (by simp [SnapCall.range])
    · rw [hagain] at hr
      exact absurd hr (by simp [SnapCall.range])
    · rw [hland] at hr
      rw [← Option.mem_some_iff.mp hr]
      exact Or.inr hbelow

/-- Bytes returned in a block that is there: nothing is known of them yet. -/
lemma SnapState.Placed.returned {mem : Bytes} (hin : s.Inside n off b w)
    (hmem : s.arena.blocks b = some mem)
    (hnone : ∀ x < n, s.known (off + x) = none) : s.Placed (.got n (off % 2 ^ 32)) := by
  intro _
  rw [Nat.mod_eq_of_lt (lt_of_le_of_lt (Nat.le_add_right _ n) hin.small)]
  exact ⟨b, w, mem, hin, hmem, Shows.fresh hnone⟩

/-- A call that returns what it took. -/
lemma SnapCall.Apart.returned (hin : s.Inside n off b w) (h : c.Apart c')
    (hc : c.range = some (off, n)) : (SnapCall.got n (off % 2 ^ 32)).Apart c' := by
  refine h.mono (fun r hr => ?_)
  rw [Nat.mod_eq_of_lt (lt_of_le_of_lt (Nat.le_add_right _ n) hin.small), SnapCall.range,
    if_neg hin.pos.ne'] at hr
  rw [hc]
  exact hr

/-- The block's pointer looked at. -/
lemma SnapState.Ok.look (h : s.Ok) (hstep : s.step (.look i) = some s') : s'.Ok := by
  obtain ⟨n, off, b, hcall, rfl⟩ := step_look hstep
  obtain ⟨⟨w, hin⟩, hb, hnone⟩ := h.placed _ (List.mem_of_getElem? hcall)
  refine ⟨h.plain, fun c hc => ?_, apart_set h.apart fun j c' hne hj => ?_, h.fresh⟩
  · refine SnapState.Placed.mono (s := s) ?_ rfl (le_refl _) rfl (fun _ _ hb => hb)
    rcases List.mem_or_eq_of_mem_set hc with hc | rfl
    · exact h.placed c hc
    · split_ifs with hthere
      · obtain ⟨mem, hmem⟩ := Option.isSome_iff_exists.mp hthere
        exact SnapState.Placed.returned hin hmem hnone
      · exact ⟨⟨w, hin⟩, hb, hnone⟩
  · have hold := h.apart i j _ c' hne.symm hcall hj
    split_ifs
    · exact hold.returned hin rfl
    · exact hold.mono (fun r hr => hr)

/-- A block published keeps those there are, and is there. -/
lemma publish_spec (a : SnapArena) (b : ℕ) :
    (a.publish b).shift = a.shift ∧ (a.publish b).tail = a.tail ∧
      (∀ c mem, a.blocks c = some mem → (a.publish b).blocks c = some mem) ∧
      (∃ mem, (a.publish b).blocks b = some mem) ∧
      ∀ c mem, (a.publish b).blocks c = some mem →
        a.blocks c = some mem ∨ c = b ∧ mem.length = SnapArena.cap a.shift b := by
  rw [SnapArena.publish]
  cases hb : a.blocks b with
  | some mem => exact ⟨rfl, rfl, fun c mem hc => hc, ⟨mem, hb⟩, fun c mem hc => Or.inl hc⟩
  | none =>
      refine ⟨rfl, rfl, fun c mem hc => ?_, ⟨_, Function.update_self ..⟩, fun c mem hc => ?_⟩
      · have hne : c ≠ b := by
          rintro rfl
          rw [hb] at hc
          exact absurd hc (by simp)
        exact (Function.update_of_ne hne _ _).trans hc
      · dsimp only at hc
        by_cases hcb : c = b
        · subst hcb
          rw [Function.update_self, Option.some.injEq] at hc
          rw [← hc, List.length_replicate]
          exact Or.inr ⟨rfl, rfl⟩
        · rw [Function.update_of_ne hcb] at hc
          exact Or.inl hc

/-- **A block allocated**, or another thread's kept. -/
lemma SnapState.Ok.publish (h : s.Ok) (hstep : s.step (.publish i) = some s') : s'.Ok := by
  obtain ⟨n, off, b, hcall, rfl⟩ := step_publish hstep
  obtain ⟨⟨w, hin⟩, hb, hnone⟩ := h.placed _ (List.mem_of_getElem? hcall)
  obtain ⟨hshift, htail, hkeep, ⟨mem, hmem⟩, hplain⟩ := publish_spec s.arena b
  have hcap : SnapArena.cap s.arena.shift b = snapCap s.arena.shift b := by
    have hstart := hin.start
    have hsmall := hin.small
    exact cap_eq (by omega)
  let t : SnapState := ⟨s.arena.publish b, s.calls, s.known⟩
  refine ⟨fun c mem' hc => ?_, fun c hc => ?_, apart_set h.apart fun j c' hne hj => ?_,
    fun x hx => ?_⟩
  · show mem'.length = snapCap (s.arena.publish b).shift c
    rw [hshift]
    rcases hplain c mem' hc with hc | ⟨rfl, hlen⟩
    · exact h.plain c mem' hc
    · rw [hlen, hcap]
  · refine SnapState.Placed.mono (s := t) ?_ rfl (le_refl _) rfl (fun _ _ hb => hb)
    rcases List.mem_or_eq_of_mem_set hc with hc | rfl
    · exact (h.placed c hc).mono hshift htail.ge rfl hkeep
    · refine SnapState.Placed.returned (s := t) (w := w) ⟨?_, ?_, ?_, hin.small, hin.pos⟩ hmem hnone
      · show off = snapStart (s.arena.publish b).shift b + w
        rw [hshift]
        exact hin.start
      · show w + n ≤ snapCap (s.arena.publish b).shift b
        rw [hshift]
        exact hin.room
      · exact hin.taken.trans htail.ge
  · exact (h.apart i j _ c' hne.symm hcall hj).returned hin rfl
  · exact h.fresh x (htail.symm.trans_le hx)

/-- **A part of the bytes a call returned** lies in their block. -/
lemma block_inside {mem : Bytes} {p len : ℕ} (hin : s.Inside n off b w)
    (hmem : s.arena.blocks b = some mem) (hlen : 0 < len) (hroom : p + len ≤ n) :
    SnapArena.locate s.arena.shift (off + p) = (b, w + p) ∧
    s.arena.block (off + p) len = some (mem, w + p) := by
  obtain ⟨hstart, hwn, -, hsmall, -⟩ := hin
  have hblock : snapStart s.arena.shift b < 2 ^ 32 := by omega
  obtain ⟨hcap, -⟩ := snapCap_lt hblock
  have hlocate : SnapArena.locate s.arena.shift (off + p) = (b, w + p) := by
    rw [hstart, Nat.add_assoc]
    exact locate_eq (by omega) (by omega)
  have hsum : addWord (w + p) len = w + p + len := Nat.mod_eq_of_lt (by omega)
  refine ⟨hlocate, ?_⟩
  rw [SnapArena.block, if_neg hlen.ne', hlocate]
  simp only [hmem, Option.bind_eq_bind, Option.bind_some, hsum, cap_eq hblock]
  exact if_pos (by omega)

/-- **Bytes written** at a place of a call's range: its window shows them, and no other call's bytes
are moved. -/
lemma SnapState.Ok.write {p : ℕ} {bytes : Bytes} (h : s.Ok)
    (hstep : s.step (.write i p bytes) = some s') : s'.Ok := by
  obtain ⟨n, off, a, hcall, hroom, hwrite, rfl⟩ := step_write hstep
  by_cases hempty : bytes = []
  · rw [SnapArena.write, if_pos hempty, Option.some.injEq] at hwrite
    subst hwrite hempty
    rw [overlay_nil]
    exact h
  have hlen : 0 < bytes.length := List.length_pos_iff.mpr hempty
  obtain ⟨b, w, mem, hin, hmem, hshows⟩ := h.placed _ (List.mem_of_getElem? hcall) (by omega)
  obtain ⟨hlocate, hblock⟩ := block_inside hin hmem hlen hroom
  have hcap := h.plain b mem hmem
  have hfits : w + n ≤ mem.length := by
    rw [hcap]
    exact hin.room
  rw [SnapArena.write, if_neg hempty, hblock, hlocate] at hwrite
  simp only [Option.bind_eq_bind, Option.bind_some, Option.some.injEq] at hwrite
  subst hwrite
  set written := writeAt mem (w + p) bytes with hwritten
  have hself : Function.update s.arena.blocks b (some written) b = some written :=
    Function.update_self ..
  have hother : ∀ c, c ≠ b → Function.update s.arena.blocks b (some written) c = s.arena.blocks c :=
    fun c hc => Function.update_of_ne hc _ _
  have hrange : (SnapCall.got n off).range = some (off, n) := if_neg (by omega)
  have htaken := hin.taken
  -- another call's bytes are not those written
  have hapart : ∀ (j : ℕ) c r, j ≠ i → s.calls[j]? = some c → c.range = some r →
      r.1 + r.2 ≤ off ∨ off + n ≤ r.1 := by
    intro j c r hne hj hr
    exact h.apart j i c _ hne hj hcall r hr (off, n) hrange
  let t : SnapState :=
    ⟨⟨s.arena.shift, Function.update s.arena.blocks b (some written), s.arena.tail⟩, s.calls,
    overlay s.known (off + p) bytes⟩
  show t.Ok
  refine ⟨fun c mem' hc => ?_, fun c hc => ?_, h.apart, fun x hx => ?_⟩
  · by_cases hcb : c = b
    · subst hcb
      rw [Option.some.inj (hc.symm.trans hself), hwritten, length_writeAt_of_le (by omega)]
      exact hcap
    · exact h.plain c mem' ((hother c hcb).symm.trans hc)
  · obtain ⟨j, hj⟩ := List.mem_iff_getElem?.mp hc
    have hplaced := h.placed c hc
    have hinside : ∀ {n' off' b' w'}, s.Inside n' off' b' w' → t.Inside n' off' b' w' :=
      fun hin' => ⟨hin'.start, hin'.room, hin'.taken, hin'.small, hin'.pos⟩
    -- bytes that were not returned yet are still not known
    have hpending : ∀ n' off', j ≠ i → c.range = some (off', n') →
        (∀ x < n', s.known (off' + x) = none) → ∀ x < n', t.known (off' + x) = none := by
      intro n' off' hne hr hnone x hx
      have hsides := hapart j c _ hne hj hr
      show overlay s.known (off + p) bytes (off' + x) = none
      rw [overlay, if_neg (by omega)]
      exact hnone x hx
    cases c with
    | trying n' => exact hplaced
    | failed => trivial
    | landing n' off' b' =>
        obtain ⟨⟨w', hin'⟩, hb', hnone⟩ := hplaced
        have hne : j ≠ i := by
          rintro rfl
          exact absurd (hj.symm.trans hcall) (by simp)
        exact ⟨⟨w', hinside hin'⟩, hb', hpending n' off' hne rfl hnone⟩
    | making n' off' b' =>
        obtain ⟨⟨w', hin'⟩, hb', hnone⟩ := hplaced
        have hne : j ≠ i := by
          rintro rfl
          exact absurd (hj.symm.trans hcall) (by simp)
        exact ⟨⟨w', hinside hin'⟩, hb', hpending n' off' hne rfl hnone⟩
    | got n' off' =>
        intro hpos
        by_cases hji : j = i
        · have hsame := hj.symm.trans (hji ▸ hcall)
          rw [Option.some.injEq, SnapCall.got.injEq] at hsame
          obtain ⟨rfl, rfl⟩ := hsame
          exact ⟨b, w, written, hinside hin, hself, hshows.write hroom hfits⟩
        · obtain ⟨b', w', mem', hin', hmem', hshows'⟩ := hplaced hpos
          have hsides := hapart j _ (off', n') hji hj (if_neg hpos.ne')
          have hplaces : off' + n' ≤ off + p ∨ off + p + bytes.length ≤ off' := by
            rcases hsides with hbefore | hbehind
            · exact Or.inl (by dsimp only at hbefore; omega)
            · exact Or.inr (by dsimp only at hbehind; omega)
          by_cases hbb : b' = b
          · subst hbb
            rw [hmem, Option.some.injEq] at hmem'
            subst hmem'
            have h1 := hin.start
            have h2 := hin'.start
            exact ⟨b', w', written, hinside hin', hself, hshows'.apart (by omega) hplaces (by omega)⟩
          · exact ⟨b', w', mem', hinside hin', (hother b' hbb).trans hmem', hshows'.elsewhere hplaces⟩
  · have hbehind : s.arena.tail ≤ x := hx
    show overlay s.known (off + p) bytes x = none
    rw [overlay, if_neg (by omega)]
    exact h.fresh x hbehind

/-- **One step** that meets what it needs keeps the invariant. -/
lemma SnapState.Ok.step {op : SnapOp} (h : s.Ok) (hmeets : op.Meets s)
    (hstep : s.step op = some s') : s'.Ok := by
  cases op with
  | call n => exact h.call hstep
  | take i => exact h.take hmeets hstep
  | look i => exact h.look hstep
  | publish i => exact h.publish hstep
  | write i p bytes => exact h.write hstep

/-- **Any interleaving** keeps the invariant. -/
lemma SnapState.Ok.run {ops : List SnapOp} (h : s.Ok) (hmeets : s.MeetsAll ops)
    (hrun : s.run ops = some s') : s'.Ok := by
  induction ops generalizing s with
  | nil =>
      rw [← Option.some.inj hrun]
      exact h
  | cons op ops ih =>
      rw [SnapState.run, List.foldlM_cons, Option.bind_eq_bind, Option.bind_eq_some_iff] at hrun
      obtain ⟨s₁, hstep, hrest⟩ := hrun
      exact ih (h.step hmeets.1 hstep) (hmeets.2 s₁ hstep) hrest

end Steps

/-! ## Calls left alone -/

/-- A call ends in `k` tries of its own. -/
def SnapState.EndsIn (s : SnapState) (i n k : ℕ) : Prop :=
  ∃ s', s.run (List.replicate k (.take i)) = some s' ∧ s'.arena.tail = s.arena.tail + k * n ∧
    s'.calls[i]? ≠ some (.trying n)

section Alone

variable {s s' : SnapState} {i n k : ℕ}

/-- A try: the call has ended, or is about to try `n` bytes on, from where it missed. -/
lemma take_alone (hcall : s.calls[i]? = some (.trying n)) (hn : 0 < n)
    (hwrap : s.arena.tail + n < 2 ^ 64) :
    ∃ s', s.step (.take i) = some s' ∧ s'.arena.tail = s.arena.tail + n ∧
      s'.arena.shift = s.arena.shift ∧
      (s'.calls[i]? ≠ some (.trying n) ∨ s'.calls[i]? = some (.trying n) ∧
        s.arena.tail + n < 2 ^ 32 ∧ Misses s.arena.shift s.arena.tail n) := by
  have hsum : addWord s.arena.tail n = s.arena.tail + n := Nat.mod_eq_of_lt hwrap
  have hlt := (List.getElem?_eq_some_iff.mp hcall).1
  have hself : (s.calls.set i (s.arena.tryAt n))[i]? = some (s.arena.tryAt n) :=
    List.getElem?_set_self hlt
  refine ⟨⟨{ s.arena with tail := s.arena.tail + n }, s.calls.set i (s.arena.tryAt n), s.known⟩, ?_,
    rfl, rfl, ?_⟩
  · rw [SnapState.step, hcall, ← hsum]
  · rw [hself, Option.some.injEq]
    rcases tryAt_cases hn hwrap with hfail | ⟨hsmall, ⟨hagain, hmiss⟩ | ⟨b, w, hland, -⟩⟩
    · rw [hfail]
      exact Or.inl (by simp)
    · exact Or.inr ⟨hagain, hsmall, hmiss⟩
    · rw [hland]
      exact Or.inl (by simp)

lemma endsIn_one (hstep : s.step (.take i) = some s') (htail : s'.arena.tail = s.arena.tail + n)
    (hends : s'.calls[i]? ≠ some (.trying n)) : s.EndsIn i n 1 := by
  refine ⟨s', ?_, by rw [htail, Nat.one_mul], hends⟩
  rw [SnapState.run, List.replicate_one, List.foldlM_cons, hstep]
  rfl

lemma SnapState.EndsIn.succ (h : s'.EndsIn i n k) (hstep : s.step (.take i) = some s')
    (htail : s'.arena.tail = s.arena.tail + n) : s.EndsIn i n (k + 1) := by
  obtain ⟨t, hrun, htail', hends⟩ := h
  refine ⟨t, ?_, ?_, hends⟩
  · rw [SnapState.run, List.replicate_succ, List.foldlM_cons, hstep]
    exact hrun
  · rw [htail', htail, Nat.succ_mul]
    omega

/-- **Four tries** at most: the third is of twice the bytes asked for or later. -/
lemma ends_within (hcall : s.calls[i]? = some (.trying n)) (hn : 0 < n)
    (hwrap : s.arena.tail + n < 2 ^ 64) : ∃ k, 1 ≤ k ∧ k ≤ 4 ∧ s.EndsIn i n k := by
  obtain ⟨s₁, hstep₁, htail₁, hshift₁, hend₁ | ⟨hcall₁, hsmall₁, -⟩⟩ := take_alone hcall hn hwrap
  · exact ⟨1, le_refl _, by omega, endsIn_one hstep₁ htail₁ hend₁⟩
  obtain ⟨s₂, hstep₂, htail₂, hshift₂, hend₂ | ⟨hcall₂, hsmall₂, -⟩⟩ :=
    take_alone hcall₁ hn (by omega)
  · exact ⟨2, by omega, by omega, (endsIn_one hstep₂ htail₂ hend₂).succ hstep₁ htail₁⟩
  obtain ⟨s₃, hstep₃, htail₃, hshift₃, hend₃ | ⟨hcall₃, hsmall₃, hmiss⟩⟩ :=
    take_alone hcall₂ hn (by omega)
  · exact ⟨3, by omega, by omega, ((endsIn_one hstep₃ htail₃ hend₃).succ hstep₂
      htail₂).succ hstep₁ htail₁⟩
  obtain ⟨s₄, hstep₄, htail₄, hshift₄, hend₄ | ⟨-, -, hmiss'⟩⟩ := take_alone hcall₃ hn (by omega)
  · exact ⟨4, by omega, le_refl _,
      (((endsIn_one hstep₄ htail₄ hend₄).succ hstep₃ htail₃).succ hstep₂ htail₂).succ hstep₁ htail₁⟩
  · rw [hshift₃, htail₃] at hmiss'
    exact absurd hmiss' (next_fits (by omega) hmiss)

end Alone

/-- **What is asked of the arena** in a state that keeps the invariant. -/
lemma SnapState.Ok.good {s : SnapState} (h : s.Ok) : s.Good := by
  refine ⟨fun i j n off n' off' hne hi hj hn hn' => ?_, fun i n off hi hn => ?_,
    fun i n off hi p bytes hroom hknown => ?_, fun i n hi hwrap => ?_⟩
  · exact h.apart i j _ _ hne hi hj (off, n) (if_neg hn.ne') (off', n') (if_neg hn'.ne')
  · obtain ⟨b, w, mem, hin, hmem, -⟩ := h.placed _ (List.mem_of_getElem? hi) hn
    refine ⟨mem, w, ?_, fun p len hlen hroom => (block_inside hin hmem hlen hroom).2⟩
    rw [h.plain b mem hmem]
    exact hin.room
  · by_cases hempty : bytes.length = 0
    · rw [hempty, SnapArena.slice, if_pos rfl, List.length_eq_zero_iff.mp hempty]
    · have hlen : 0 < bytes.length := Nat.pos_of_ne_zero hempty
      obtain ⟨b, w, mem, hin, hmem, hshows⟩ := h.placed _ (List.mem_of_getElem? hi) (by omega)
      have hfits : w + n ≤ mem.length := by
        rw [h.plain b mem hmem]
        exact hin.room
      rw [SnapArena.slice, if_neg hempty, (block_inside hin hmem hlen hroom).2]
      exact congrArg some (hshows.slice_eq hroom hfits hknown)
  · obtain ⟨k, hlo, hhi, s', hrun, htail, hends⟩ :=
      ends_within hi (h.placed _ (List.mem_of_getElem? hi)) hwrap
    exact ⟨k, s', hlo, hhi, hrun, htail, hends⟩

end Supdb

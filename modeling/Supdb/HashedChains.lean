import Supdb.HashedTable

/-!
# The chains of a hashed table

Every write pushes a chunk that names the chunk of its key before it.

* `chainOf` – a key's chunks among all that were pushed, newest first.
* `Stored` – the arena holds every chunk, each linked to the one before it in its chain.
* `push_stored` – **a push** stores one more, and moves none.
* `Stored.liveWalk`, `Stored.tombWalk` – **what the walks find under a watermark**: the values
  behind the newest tombstone of the chunks below it.
-/

namespace Supdb

open StorageLib

/-! ## Chains -/

/-- What a record's chunk holds: a value, or a tombstone. -/
def WalRecord.value? : WalRecord → Option Bytes
  | .put _ value => some value
  | .delete _ => none

/-- A key's chunks, newest first, among chunks pushed one after another. -/
def chainOf (chunks : List (ℕ × WalRecord)) (k : Bytes) : List (ℕ × Option Bytes) :=
  ((chunks.filter (fun c => c.2.key = k)).map (fun c => (c.1, c.2.value?))).reverse

/-- Where a chain begins. -/
def newest : List (ℕ × Option Bytes) → ℕ
  | [] => NO_CHUNK
  | c :: _ => c.1

/-- The offsets of a chain's live values, newest first, and whether a tombstone ends it. -/
def liveOf : List (ℕ × Option Bytes) → List ℕ × Bool
  | [] => ([], false)
  | (_, none) :: _ => ([], true)
  | (off, some _) :: rest => (off :: (liveOf rest).1, (liveOf rest).2)

/-- A chunk at an offset of an arena. -/
def ChunkAt (a : ByteArena) (off prev : ℕ) : Option Bytes → Prop
  | some value => a.Holds off (leBytes 8 prev) ∧ a.Holds (off + 8) (leBytes 4 value.length) ∧
      a.Holds (off + CHUNK_HDR) value ∧ value.length < TOMB_LEN
  | none => a.Holds off (leBytes 8 prev) ∧ a.Holds (off + 8) (leBytes 4 TOMB_LEN)

/-- The bytes a chunk takes. -/
def pushLen : Option Bytes → ℕ
  | some value => CHUNK_HDR + value.length
  | none => CHUNK_HDR

lemma pushLen_pos (value : Option Bytes) : 0 < pushLen value := by
  cases value with
  | none => decide
  | some v => exact Nat.lt_of_lt_of_le (by decide) (Nat.le_add_right CHUNK_HDR v.length)

/-- A chain in an arena, each chunk naming the one before it. -/
def Linked (a : ByteArena) : List (ℕ × Option Bytes) → Prop
  | [] => True
  | (off, value) :: rest => ChunkAt a off (newest rest) value ∧ newest rest < 2 ^ 64 ∧ Linked a rest

/-- **An arena's chunks**: in the order they were pushed, below the tail, each in its key's chain.
-/
structure Stored (a : ByteArena) (chunks : List (ℕ × WalRecord)) : Prop where
  arena : a.Ok
  sorted : (chunks.map Prod.fst).Pairwise (· < ·)
  below : ∀ c ∈ chunks, c.1 < a.tail
  linked : ∀ k, Linked a (chainOf chunks k)
  used : a.used = (chunks.map (fun c => pushLen c.2.value?)).sum

section Chains

variable {a a' : ByteArena} {chunks more : List (ℕ × WalRecord)} {c : ℕ × WalRecord} {k : Bytes}

lemma chainOf_append : chainOf (chunks ++ more) k = chainOf more k ++ chainOf chunks k := by
  rw [chainOf, List.filter_append, List.map_append, List.reverse_append]
  rfl

lemma chainOf_nil_of {chunks : List (ℕ × WalRecord)} (h : ∀ c ∈ chunks, c.2.key ≠ k) :
    chainOf chunks k = [] := by
  have hnil : chunks.filter (fun c => c.2.key = k) = [] :=
    List.filter_eq_nil_iff.mpr (fun c hc => by simpa using h c hc)
  rw [chainOf, hnil]
  rfl

lemma chainOf_snoc_self (h : c.2.key = k) :
    chainOf (chunks ++ [c]) k = (c.1, c.2.value?) :: chainOf chunks k := by
  rw [chainOf_append, chainOf, List.filter_cons_of_pos (by simpa using h)]
  rfl

lemma chainOf_snoc_of_ne (h : c.2.key ≠ k) : chainOf (chunks ++ [c]) k = chainOf chunks k := by
  have hnil : chainOf [c] k = [] :=
    chainOf_nil_of (fun d hd => by rw [List.mem_singleton.mp hd]; exact h)
  rw [chainOf_append, hnil, List.nil_append]

lemma mem_of_mem_chainOf {d : ℕ × Option Bytes} (h : d ∈ chainOf chunks k) :
    ∃ c ∈ chunks, c.1 = d.1 := by
  rw [chainOf, List.mem_reverse, List.mem_map] at h
  obtain ⟨c, hc, rfl⟩ := h
  exact ⟨c, List.mem_of_mem_filter hc, rfl⟩

lemma ChunkAt.imp {off prev : ℕ} {value : Option Bytes}
    (hmono : ∀ o x, a.Holds o x → a'.Holds o x) (h : ChunkAt a off prev value) :
    ChunkAt a' off prev value := by
  cases value with
  | none => exact ⟨hmono _ _ h.1, hmono _ _ h.2⟩
  | some v => exact ⟨hmono _ _ h.1, hmono _ _ h.2.1, hmono _ _ h.2.2.1, h.2.2.2⟩

lemma ChunkAt.lt {off prev : ℕ} {value : Option Bytes} (ha : a.Ok) (h : ChunkAt a off prev value) :
    off < ARENA_BLOCKS * ARENA_BLOCK := by
  cases value with
  | none => exact h.1.lt ha
  | some v => exact h.1.lt ha

lemma Linked.imp {l : List (ℕ × Option Bytes)} (hmono : ∀ o x, a.Holds o x → a'.Holds o x)
    (h : Linked a l) : Linked a' l := by
  induction l with
  | nil => trivial
  | cons d l ih => exact ⟨h.1.imp hmono, h.2.1, ih h.2.2⟩

lemma Stored.head_lt (h : Stored a chunks) (k : Bytes) : newest (chainOf chunks k) < 2 ^ 64 := by
  have hlinked := h.linked k
  cases hchain : chainOf chunks k with
  | nil => exact (by decide : NO_CHUNK < 2 ^ 64)
  | cons d l =>
      rw [hchain] at hlinked
      exact (hlinked.1.lt h.arena).trans (by decide)

lemma Stored.last_lt (h : Stored a (chunks ++ [c])) : c.1 < a.tail :=
  h.below c (List.mem_append_right _ (List.mem_singleton_self _))

/-- One more chunk stored, behind the tail. -/
lemma Stored.snoc (h : Stored a chunks) (ha : a'.Ok) (hmono : ∀ o x, a.Holds o x → a'.Holds o x)
    (htail : a.tail ≤ c.1) (hlt : c.1 < a'.tail)
    (hused : a'.used = a.used + pushLen c.2.value?)
    (hchunk : ChunkAt a' c.1 (newest (chainOf chunks c.2.key)) c.2.value?) :
    Stored a' (chunks ++ [c]) := by
  refine ⟨ha, ?_, fun d hd => ?_, fun k => ?_, by rw [hused, h.used]; simp⟩
  · rw [List.map_append, List.pairwise_append]
    refine ⟨h.sorted, List.pairwise_singleton _ _, ?_⟩
    intro x hx y hy
    obtain ⟨d, hd, rfl⟩ := List.mem_map.mp hx
    rw [List.mem_singleton.mp hy]
    exact (h.below d hd).trans_le htail
  · rcases List.mem_append.mp hd with hd | hd
    · exact (h.below d hd).trans_le (htail.trans hlt.le)
    · rw [List.mem_singleton.mp hd]
      exact hlt
  · by_cases hk : c.2.key = k
    · rw [chainOf_snoc_self hk, ← hk]
      exact ⟨hchunk, h.head_lt _, (h.linked _).imp hmono⟩
    · rw [chainOf_snoc_of_ne hk]
      exact (h.linked k).imp hmono

end Chains

/-! ## Pushes -/

/-- What a push needs: a value whose length is below a tombstone's word, and room for the chunk. -/
def PushMeets (a : ByteArena) : Option Bytes → Prop
  | some value => value.length < TOMB_LEN ∧ a.Takes (CHUNK_HDR + value.length) CHUNK_HDR
  | none => a.Takes CHUNK_HDR 8

instance (a : ByteArena) : (value : Option Bytes) → Decidable (PushMeets a value)
  | some value => inferInstanceAs (Decidable (value.length < TOMB_LEN ∧ _))
  | none => inferInstanceAs (Decidable (a.Takes CHUNK_HDR 8))

section Pushes

variable {t : HashedTable} {chunks : List (ℕ × WalRecord)} {value : Option Bytes}

/-- A chunk's header written into the room reserved for it. -/
lemma header_spec (prev : ℕ) {a : ByteArena} {off n z w : ℕ} (h : a.Ok) (hr : a.Reserved off n z)
    (hz : 8 ≤ z) (hn : CHUNK_HDR ≤ n) :
    ∃ a₁ a₂, a.write off (leBytes 8 prev) = some a₁ ∧ a₁.write (off + 8) (leBytes 4 w) = some a₂ ∧
      a₂ = { a with blocks := a₂.blocks } ∧ a₂.Ok ∧ a₂.Reserved off n z ∧
      a₂.Holds off (leBytes 8 prev) ∧
      a₂.Holds (off + 8) (leBytes 4 w) ∧ ∀ o x, o + x.length ≤ off → a.Holds o x →
      a₂.Holds o x := by
  rw [CHUNK_HDR] at hn
  obtain ⟨a₁, hw₁, hsame₁, hok₁, hr₁, hh₁, hm₁⟩ :=
    hr.write (p := 0) (leBytes 8 prev) h (Nat.zero_le _) (by rw [length_leBytes]; omega)
  obtain ⟨a₂, hw₂, hsame₂, hok₂, hr₂, hh₂, hm₂⟩ :=
    hr₁.write (p := 8) (leBytes 4 w) hok₁ hz (by rw [length_leBytes]; omega)
  rw [add_zero] at hw₁ hh₁ hm₁
  refine ⟨a₁, a₂, hw₁, hw₂, ?_, hok₂, hr₂, hm₂ _ _ (by rw [length_leBytes]) hh₁, hh₂,
    fun o x ho hx => ?_⟩
  · rw [hsame₂, hsame₁]
  · exact hm₂ o x (ho.trans (Nat.le_add_right _ _)) (hm₁ o x ho hx)

/-- Room for a chunk. -/
def PushTakes (a : ByteArena) : Option Bytes → Prop
  | some value => a.Takes (CHUNK_HDR + value.length) CHUNK_HDR
  | none => a.Takes CHUNK_HDR 8

/-- What a chunk holds of the value it was pushed with: its length word has the length's low 32
bits, and a length whose low bits are a tombstone's is one. -/
def chunkValue : Option Bytes → Option Bytes
  | some value =>
      if value.length % 2 ^ 32 = TOMB_LEN then none else some (value.take (value.length % 2 ^ 32))
  | none => none

lemma chunkValue_eq (h : PushMeets t.vals value) : chunkValue value = value := by
  cases value with
  | none => rfl
  | some v =>
      have hword : v.length % 2 ^ 32 = v.length := Nat.mod_eq_of_lt (h.1.trans (by decide))
      rw [chunkValue, hword, if_neg h.1.ne, List.take_length]

/-- A part of what is held. -/
lemma ByteArena.Holds.take_bytes {a : ByteArena} {off : ℕ} {x : Bytes} (h : a.Holds off x) (n : ℕ) :
    a.Holds off (x.take n) := by
  obtain ⟨hslice, htail⟩ := h
  obtain ⟨mem, hmem, hroom, hx⟩ := ByteArena.slice_eq_some.mp hslice
  have hle : (x.take n).length ≤ x.length := List.length_take_le' _ _
  refine ⟨ByteArena.slice_eq_some.mpr ⟨mem, hmem, by omega, ?_⟩, by omega⟩
  have hlen : (x.take n).length = n ⊓ x.length := List.length_take
  conv_lhs => rw [hx]
  rw [slice_eq_take_drop, slice_eq_take_drop, List.take_take]
  congr 1
  omega

/-- **A push** reserves its room and writes the chunk there, and moves nothing. -/
lemma push_takes (prev : ℕ) (h : t.vals.Ok) (hmeets : PushTakes t.vals value) :
    ∃ r vals off, t.vals.reserve (pushLen value) = some (r, off) ∧
      t.push prev value
        = some ({ t with vals := vals, tombs := t.tombs + if value.isNone then 1 else 0 }, off) ∧
      vals = { r with blocks := vals.blocks } ∧ vals.Ok ∧ (∀ o x, t.vals.Holds o x → vals.Holds o x) ∧
      t.vals.tail ≤ off ∧ vals.tail = off + pushLen value ∧ vals.used = t.vals.used + pushLen value ∧
      ChunkAt vals off prev (chunkValue value) := by
  cases value with
  | none =>
      obtain ⟨r, off, hreserve, hr, htail, hrtail, hused, hmono, hres⟩ :=
        ByteArena.reserve_spec h hmeets (by decide)
      obtain ⟨a₁, a₂, hw₁, hw₂, hsame, hok, -, hh₁, hh₂, hm⟩ :=
        header_spec prev (w := TOMB_LEN) hr hres (le_refl _) (le_refl _)
      refine ⟨r, a₂, off, hreserve, ?_, hsame, hok,
        fun o x hx => hm o x (hx.2.trans htail) (hmono o x hx), htail, ?_, ?_, hh₁, hh₂⟩
      · rw [HashedTable.push, HashedTable.pushTomb, hreserve]
        simp only [Option.bind_eq_bind, Option.bind_some, hw₁, hw₂]
        rfl
      · rw [hsame]
        exact hrtail
      · rw [hsame]
        exact hused
  | some v =>
      obtain ⟨r, off, hreserve, hr, htail, hrtail, hused, hmono, hres⟩ :=
        ByteArena.reserve_spec h hmeets (by decide)
      obtain ⟨a₁, a₂, hw₁, hw₂, hsame, hok, hres₂, hh₁, hh₂, hm⟩ :=
        header_spec prev (w := v.length % 2 ^ 32) hr hres (by decide) (Nat.le_add_right _ _)
      obtain ⟨a₃, hw₃, hsame₃, hok₃, -, hh₃, hm₃⟩ := hres₂.write v hok (le_refl _) (le_refl _)
      have hprev : a₃.Holds off (leBytes 8 prev) := hm₃ _ _ (by rw [length_leBytes, CHUNK_HDR]; omega) hh₁
      have hlen : a₃.Holds (off + 8) (leBytes 4 (v.length % 2 ^ 32)) :=
        hm₃ _ _ (by rw [length_leBytes, CHUNK_HDR]) hh₂
      refine ⟨r, a₃, off, hreserve, ?_, ?_, hok₃, fun o x hx => ?_, htail, ?_, ?_, ?_⟩
      · rw [HashedTable.push, HashedTable.pushChunk, hreserve]
        simp only [Option.bind_eq_bind, Option.bind_some, hw₁, hw₂, hw₃]
        rfl
      · rw [hsame₃, hsame]
      · have ho : o + x.length ≤ off := hx.2.trans htail
        exact hm₃ o x (ho.trans (Nat.le_add_right _ _)) (hm o x ho (hmono o x hx))
      · rw [hsame₃, hsame]
        exact hrtail
      · rw [hsame₃, hsame]
        exact hused
      · rw [chunkValue]
        split_ifs with hword
        · exact ⟨hprev, hword ▸ hlen⟩
        · have htake : (v.take (v.length % 2 ^ 32)).length = v.length % 2 ^ 32 := by
            rw [List.length_take]
            exact Nat.min_eq_left (Nat.mod_le _ _)
          have hlt := Nat.mod_lt v.length (show 0 < 2 ^ 32 by decide)
          refine ⟨hprev, by rwa [htake], hh₃.take_bytes _, ?_⟩
          rw [htake]
          exact lt_of_le_of_ne (Nat.le_sub_one_of_lt hlt) hword

lemma PushMeets.takes (h : PushMeets t.vals value) : PushTakes t.vals value := by
  cases value with
  | none => exact h
  | some v => exact h.2

/-- **A record pushed** behind its key's chain is stored with it. -/
lemma push_stored {r : WalRecord} (h : Stored t.vals chunks) (hmeets : PushMeets t.vals r.value?) :
    ∃ room vals off, t.vals.reserve (pushLen r.value?) = some (room, off) ∧
      t.push (newest (chainOf chunks r.key)) r.value?
        = some ({ t with vals := vals, tombs := t.tombs + if r.value?.isNone then 1 else 0 }, off) ∧
      vals = { room with blocks := vals.blocks } ∧ t.vals.tail ≤ off ∧ Stored vals (chunks ++ [(off, r)]) := by
  obtain ⟨room, vals, off, hreserve, hpush, hsame, hok, hmono, htail, hend, hused, hchunk⟩ :=
    push_takes (newest (chainOf chunks r.key)) h.arena hmeets.takes
  rw [chunkValue_eq hmeets] at hchunk
  have hlt : off < vals.tail := by
    rw [hend]
    exact Nat.lt_add_of_pos_right (pushLen_pos _)
  exact ⟨room, vals, off, hreserve, hpush, hsame, htail, h.snoc hok hmono htail hlt hused hchunk⟩

end Pushes

/-! ## Walks -/

/-- What a chain says of its key: the values behind its newest tombstone, oldest first, and whether
it has one. -/
def chainDelta : List (ℕ × Option Bytes) → Delta Bytes
  | [] => 1
  | (_, none) :: _ => ⟨true, []⟩
  | (_, some value) :: rest => ⟨(chainDelta rest).masks, (chainDelta rest).vals ++ [value]⟩

/-- **A key's chain says what its records do.** -/
lemma chainDelta_chainOf (chunks : List (ℕ × WalRecord)) (k : Bytes) :
    chainDelta (chainOf chunks k) = recordsDelta (chunks.map Prod.snd) k := by
  induction chunks using List.reverseRecOn with
  | nil => rfl
  | append_singleton chunks c ih =>
      rw [List.map_append, recordsDelta_append, ← ih, List.map_singleton, recordsDelta_cons, recordsDelta_nil, mul_one]
      by_cases hk : c.2.key = k
      · rw [chainOf_snoc_self hk]
        obtain ⟨off, r⟩ := c
        cases r with
        | put key value =>
            rw [show (WalRecord.put key value).delta k = ⟨false, [value]⟩ from if_pos hk, Delta.mul_def]
            simp [chainDelta, WalRecord.value?]
        | delete key =>
            rw [show (WalRecord.delete key).delta k = ⟨true, []⟩ from if_pos hk, Delta.mul_def]
            simp [chainDelta, WalRecord.value?]
      · rw [chainOf_snoc_of_ne hk, WalRecord.delta_of_ne hk, mul_one]

section Walks

variable {t : HashedTable} {chunks old new : List (ℕ × WalRecord)} {l : List (ℕ × Option Bytes)}
  {off prev wm fuel : ℕ} {value : Option Bytes} {k : Bytes}

lemma chunkPrev_eq (h : ChunkAt t.vals off prev value) (hprev : prev < 2 ^ 64) :
    t.chunkPrev off = some prev := by
  have hholds : t.vals.Holds off (leBytes 8 prev) := by
    cases value with
    | none => exact h.1
    | some v => exact h.1
  have hslice := hholds.1
  rw [length_leBytes] at hslice
  rw [HashedTable.chunkPrev, hslice, Option.map_some, leNat_leBytes (by simpa using hprev)]

lemma chunkLen_none (h : ChunkAt t.vals off prev none) : t.chunkLen off = some TOMB_LEN := by
  have hslice := h.2.1
  rw [length_leBytes] at hslice
  rw [HashedTable.chunkLen, hslice, Option.map_some, leNat_leBytes (by decide)]

lemma chunkLen_some {v : Bytes} (h : ChunkAt t.vals off prev (some v)) :
    t.chunkLen off = some v.length := by
  have hslice := h.2.1.1
  rw [length_leBytes] at hslice
  rw [HashedTable.chunkLen, hslice, Option.map_some, leNat_leBytes (h.2.2.2.trans (by decide))]

lemma valueAt_eq {v : Bytes} (h : ChunkAt t.vals off prev (some v)) : t.valueAt off = some v := by
  rw [HashedTable.valueAt, chunkLen_some h]
  exact h.2.2.1.1

/-- **The walk under a watermark** finds the values behind the newest tombstone of the chunks below
it. -/
lemma liveWalk_eq (ha : t.vals.Ok) (h : Linked t.vals l) (hfuel : l.length < fuel) (out : List ℕ) :
    t.liveWalk wm fuel (newest l) out
      = some (out ++ (liveOf (l.filter (fun d => d.1 < wm))).1,
      (liveOf (l.filter (fun d => d.1 < wm))).2) := by
  induction l generalizing fuel out with
  | nil =>
      obtain ⟨fuel, rfl⟩ : ∃ n, fuel = n + 1 := ⟨fuel - 1, by omega⟩
      rw [HashedTable.liveWalk, newest, if_pos rfl, List.filter_nil, liveOf, List.append_nil]
  | cons d l ih =>
      obtain ⟨fuel, rfl⟩ : ∃ n, fuel = n + 1 := ⟨fuel - 1, by omega⟩
      obtain ⟨off, value⟩ := d
      obtain ⟨hchunk, hprev, hlinked⟩ := h
      have hne : off ≠ NO_CHUNK := by
        have hlt := hchunk.lt ha
        rintro rfl
        exact absurd hlt (by decide)
      rw [List.length_cons] at hfuel
      have hrest : l.length < fuel := by omega
      rw [HashedTable.liveWalk, newest, if_neg hne]
      by_cases hwm : wm ≤ off
      · rw [if_pos hwm, chunkPrev_eq hchunk hprev, List.filter_cons_of_neg (by simpa using hwm)]
        exact ih hlinked hrest out
      · rw [if_neg hwm, List.filter_cons_of_pos (by simpa using hwm)]
        cases value with
        | none =>
            simp only [chunkLen_none hchunk, liveOf, List.append_nil, Option.bind_eq_bind, Option.bind_some, if_true]
        | some v =>
            have hword : v.length ≠ TOMB_LEN := hchunk.2.2.2.ne
            rw [chunkLen_some hchunk, liveOf]
            simp only [Option.bind_eq_bind, Option.bind_some, if_neg hword, chunkPrev_eq hchunk hprev]
            rw [ih hlinked hrest, List.append_assoc]
            rfl

/-- The walk for a tombstone agrees with it. -/
lemma tombWalk_eq (ha : t.vals.Ok) (h : Linked t.vals l) (hfuel : l.length < fuel) :
    t.tombWalk wm fuel (newest l) = some (liveOf (l.filter (fun d => d.1 < wm))).2 := by
  induction l generalizing fuel with
  | nil =>
      obtain ⟨fuel, rfl⟩ : ∃ n, fuel = n + 1 := ⟨fuel - 1, by omega⟩
      rw [HashedTable.tombWalk, newest, if_pos rfl, List.filter_nil, liveOf]
  | cons d l ih =>
      obtain ⟨fuel, rfl⟩ : ∃ n, fuel = n + 1 := ⟨fuel - 1, by omega⟩
      obtain ⟨off, value⟩ := d
      obtain ⟨hchunk, hprev, hlinked⟩ := h
      have hne : off ≠ NO_CHUNK := by
        have hlt := hchunk.lt ha
        rintro rfl
        exact absurd hlt (by decide)
      rw [List.length_cons] at hfuel
      have hrest : l.length < fuel := by omega
      rw [HashedTable.tombWalk, newest, if_neg hne]
      by_cases hwm : off < wm
      · rw [if_pos hwm, List.filter_cons_of_pos (by simpa using hwm)]
        cases value with
        | none =>
            rw [chunkLen_none hchunk, liveOf]
            rfl
        | some v =>
            have hword : v.length ≠ TOMB_LEN := hchunk.2.2.2.ne
            rw [chunkLen_some hchunk, liveOf]
            simp only [Option.map_some, decide_eq_false hword, Option.bind_eq_bind,
              Option.bind_some, Bool.false_eq_true, if_false, chunkPrev_eq hchunk hprev]
            exact ih hlinked hrest
      · rw [if_neg hwm, List.filter_cons_of_neg (by simpa using hwm)]
        simp only [Option.bind_eq_bind, Option.bind_some, Bool.false_eq_true, if_false, chunkPrev_eq hchunk hprev]
        exact ih hlinked hrest

/-- The values at the offsets a walk found. -/
lemma mapM_valueAt (h : Linked t.vals l) :
    (liveOf l).1.reverse.mapM t.valueAt = some (chainDelta l).vals ∧
    (liveOf l).2 = (chainDelta l).masks := by
  induction l with
  | nil => exact ⟨rfl, rfl⟩
  | cons d l ih =>
      obtain ⟨off, value⟩ := d
      obtain ⟨hchunk, -, hlinked⟩ := h
      obtain ⟨hvals, hmasks⟩ := ih hlinked
      cases value with
      | none => exact ⟨rfl, rfl⟩
      | some v =>
          refine ⟨?_, hmasks⟩
          rw [liveOf, List.reverse_cons, List.mapM_append, hvals]
          simp only [Option.bind_eq_bind, Option.bind_some, List.mapM_cons, List.mapM_nil, valueAt_eq hchunk]
          rfl

end Walks

end Supdb

import Supdb.SectionWrite
import Supdb.AlignedWriter

/-!
# A checksum row from three hashers

The row of a streamed key section is the work of the writer, which hashes what it buffers; of the
helper, which hashes what has landed on the file; and of the finish, which reads back what neither
has.  Each keeps to one predicate:

* **`Hashed`** – a row is the CRCs of the output's whole pieces from the section's first boundary
  on.
* **`Hashing`** – so it is up to a byte, with the CRC of the piece in progress beside it.

The helper's thread may stand anywhere when the writer changes a word it reads.  `Helper.Ok` holds
at each of its places, and every access keeps it (`Helper.Ok.step`); what it has loaded of the
file's length is never past the file, and a row it is given while it has seen nothing is one it goes
on with (`Helper.Ok.of_quiet`).

* `AlignedWriter.Ok.written_calls` – how much of what they were given is on the file.
* `AlignedWriter.Ok.calls` – writes of every kind keep the writer's own row, the helper's and the
  file.
* `AlignedWriter.Ok.joinHelper` – what is joined is a row of the output's pieces, however far it
  goes.
* **`row_assembly`** – the row that results is `checksumRow` of the section, under every schedule of
  the helper.
-/

namespace Supdb

open StorageLib Flatindex

lemma PIECE_eq : PIECE = 16384 := rfl

/-! ## Rows of pieces -/

/-- The row is the CRCs of the output's pieces from `start` on. -/
def Hashed (out : Bytes) (start : ℕ) (row : List (BitVec 32)) : Prop :=
  ∀ i < row.length, start + (i + 1) * PIECE ≤ out.length ∧
    row[i]? = some (crc32 (slice out (start + i * PIECE) (start + (i + 1) * PIECE)))

lemma hashed_nil (out : Bytes) (start : ℕ) : Hashed out start [] :=
  fun i hi => absurd hi (Nat.not_lt_zero i)

lemma Hashed.append {out : Bytes} {start : ℕ} {row : List (BitVec 32)} (h : Hashed out start row)
    (x : Bytes) : Hashed (out ++ x) start row := by
  intro i hi
  obtain ⟨hle, hrow⟩ := h i hi
  refine ⟨by rw [List.length_append]; omega, ?_⟩
  rw [hrow, slice_append_left hle]

lemma Hashed.snoc {out : Bytes} {start : ℕ} {row : List (BitVec 32)} (h : Hashed out start row)
    {crc : BitVec 32} (hle : start + (row.length + 1) * PIECE ≤ out.length)
    (hcrc : crc
    = crc32 (slice out (start + row.length * PIECE) (start + (row.length + 1) * PIECE))) :
    Hashed out start (row ++ [crc]) := by
  intro i hi
  rw [List.length_append, List.length_singleton] at hi
  by_cases hlast : i < row.length
  · obtain ⟨hle, hrow⟩ := h i hlast
    exact ⟨hle, by rw [List.getElem?_append_left hlast, hrow]⟩
  · have hi' : i = row.length := by omega
    subst hi'
    exact ⟨hle, by rw [List.getElem?_concat_length, hcrc]⟩

/-- Hashed up to `p`: the whole pieces in the row, and the piece in progress in the CRC. -/
structure Hashing (out : Bytes) (start p : ℕ) (crc : BitVec 32) (row : List (BitVec 32)) :
    Prop where
  hashed : Hashed out start row
  lo : start + row.length * PIECE ≤ p
  hi : p < start + (row.length + 1) * PIECE
  part : crc = crc32 (slice out (start + row.length * PIECE) p)
  written : start < p → p ≤ out.length

lemma hashing_start (out : Bytes) (start : ℕ) : Hashing out start start 0 [] where
  hashed := hashed_nil out start
  lo := by simp
  hi := by simp [PIECE_eq]
  part := by simp
  written := fun h => absurd h (lt_irrefl start)

lemma Hashing.append {out : Bytes} {start p : ℕ} {crc : BitVec 32} {row : List (BitVec 32)}
    (h : Hashing out start p crc row) (x : Bytes) : Hashing (out ++ x) start p crc row where
  hashed := h.hashed.append x
  lo := h.lo
  hi := h.hi
  part := by
    rw [h.part]
    by_cases hp : start < p
    · rw [slice_append_left (h.written hp)]
    · have hlo := h.lo
      have hz : start + row.length * PIECE = p := by omega
      rw [hz, slice_self, slice_self]
  written := fun hp => by
    have := h.written hp
    rw [List.length_append]
    omega

/-- The end of the piece `p` lies in is the end of the piece in progress. -/
lemma Hashing.boundary {out : Bytes} {start p : ℕ} {crc : BitVec 32} {row : List (BitVec 32)}
    (h : Hashing out start p crc row) (hstart : PIECE ∣ start) :
    (p / PIECE + 1) * PIECE = start + (row.length + 1) * PIECE := by
  obtain ⟨hlo, hhi⟩ := And.intro h.lo h.hi
  obtain ⟨k, rfl⟩ := hstart
  rw [PIECE_eq] at hlo hhi ⊢
  have hdiv : p / 16384 = k + row.length := by omega
  rw [hdiv]
  ring

/-- **One chunk**: bytes inside one piece, from where the hashing stands. -/
lemma Hashing.step {out : Bytes} {start p stop : ℕ} {crc c : BitVec 32} {row : List (BitVec 32)}
    (h : Hashing out start p crc row) (hstart : PIECE ∣ start) (hp : p < stop)
    (hstop : stop ≤ out.length) :
    let boundary := (p / PIECE + 1) * PIECE
    let cut := min boundary stop
    c = crc32 (slice out (start + row.length * PIECE) p ++ slice out p cut) →
      Hashing out start cut (if cut = boundary then 0 else c)
      (if cut = boundary then row ++ [c] else row) := by
  intro boundary cut hcrc
  have hb : boundary = start + (row.length + 1) * PIECE := h.boundary hstart
  have hlo := h.lo
  have hhi := h.hi
  have hcut : p < cut := by omega
  have hjoin : slice out (start + row.length * PIECE) p ++ slice out p cut
      = slice out (start + row.length * PIECE) cut := slice_append_slice out hlo hcut.le
  rw [hjoin] at hcrc
  by_cases hend : cut = boundary
  · rw [if_pos hend, if_pos hend]
    have hnext : start + (row ++ [c]).length * PIECE = cut := by
      rw [List.length_append, List.length_singleton, hend, hb]
    refine ⟨h.hashed.snoc (by omega) ?_, hnext.le, ?_, ?_, fun _ => by omega⟩
    · rw [hcrc, hend, hb]
    · rw [Nat.succ_mul]
      have hpos : 0 < PIECE := by decide
      omega
    · rw [hnext, slice_self, crc32_nil]
  · rw [if_neg hend, if_neg hend]
    exact ⟨h.hashed, by omega, by omega, hcrc, fun _ => by omega⟩

namespace AlignedWriter

/-! ## The writer's own row -/

section Own

variable {pre data : Bytes} {start : ℕ}

/-- A window of what follows `pre` is read out of it. -/
lemma slice_data {a b : ℕ} (ha : pre.length ≤ a) (hb : pre.length ≤ b) :
    slice data (a - pre.length) (b - pre.length) = slice (pre ++ data) a b := by
  have h := slice_append_shift pre data (a - pre.length) (b - pre.length)
  rw [Nat.add_sub_cancel' ha, Nat.add_sub_cancel' hb] at h
  exact h.symm

/-- **The loop of `own_hash`** takes the hashing to the end of the data. -/
lemma ownHashFrom_spec (hstart : PIECE ∣ start) {stop : ℕ} (hstop : stop = pre.length + data.length)
    (n : ℕ) :
    ∀ {p : ℕ} {crc : BitVec 32} {row : List (BitVec 32)}, stop - p = n → pre.length ≤ p → p ≤ stop →
      Hashing (pre ++ data) start p crc row →
      Hashing (pre ++ data) start stop (ownHashFrom data pre.length stop p crc row).1
        (ownHashFrom data pre.length stop p crc row).2 := by
  induction n using Nat.strong_induction_on with
  | _ n ih =>
      intro p crc row hn hlo hle h
      rw [ownHashFrom]
      by_cases hp : p < stop
      · rw [if_pos hp]
        have hcut : p < min ((p / PIECE + 1) * PIECE) stop := by
          have hb := h.boundary hstart
          have hhi := h.hi
          omega
        have hlen : stop ≤ (pre ++ data).length := by rw [List.length_append]; omega
        have hstep := h.step hstart hp hlen (c := crc32Resume crc
          (slice data (p - pre.length) (min ((p / PIECE + 1) * PIECE) stop - pre.length)))
          (by rw [slice_data hlo (by omega), h.part, crc32Resume_crc32])
        by_cases hend : min ((p / PIECE + 1) * PIECE) stop = (p / PIECE + 1) * PIECE
        · rw [if_pos hend, if_pos hend] at hstep
          simp only [if_pos hend]
          exact ih _ (by omega) rfl (by omega) (min_le_right _ _) hstep
        · rw [if_neg hend, if_neg hend] at hstep
          simp only [if_neg hend]
          exact ih _ (by omega) rfl (by omega) (min_le_right _ _) hstep
      · rw [if_neg hp]
        have hps : p = stop := by omega
        subst hps
        exact h

/-- **The loop of `write_hashed`** hashes the data once, for its whole and for the row. -/
lemma hashFrom_spec (own : Bool) (hstart : PIECE ∣ start) {stop : ℕ}
    (hstop : stop = pre.length + data.length) (n : ℕ) :
    ∀ {p : ℕ} {s : HashPass}, stop - p = n → pre.length ≤ p → p ≤ stop →
      s.whole = crc32 (slice (pre ++ data) pre.length p) →
      (own = true → s.ownAt = max start p ∧ Hashing (pre ++ data) start s.ownAt s.ownCrc s.ownRow) →
      (hashFrom own data pre.length stop p s).whole = crc32 data ∧
        (own = true → (hashFrom own data pre.length stop p s).ownAt = max start stop ∧
          Hashing (pre ++ data) start (hashFrom own data pre.length stop p s).ownAt
            (hashFrom own data pre.length stop p s).ownCrc (hashFrom own data pre.length stop p s).ownRow) ∧
        (own = false → (hashFrom own data pre.length stop p s).ownAt = s.ownAt ∧
          (hashFrom own data pre.length stop p s).ownCrc = s.ownCrc ∧
          (hashFrom own data pre.length stop p s).ownRow = s.ownRow) := by
  induction n using Nat.strong_induction_on with
  | _ n ih =>
      intro p s hn hlo hle hwhole hown
      rw [hashFrom]
      by_cases hp : p < stop
      · rw [if_pos hp]
        have hlen : stop ≤ (pre ++ data).length := by rw [List.length_append]; omega
        have hbound : p < (p / PIECE + 1) * PIECE ∧ ∀ q, PIECE ∣ q → q < (p / PIECE + 1) * PIECE → q ≤ p := by
          refine ⟨by rw [PIECE_eq]; omega, ?_⟩
          rintro q ⟨k, rfl⟩ hq
          rw [PIECE_eq] at hq ⊢
          omega
        set boundary := (p / PIECE + 1) * PIECE with hboundary
        set cut := min boundary stop with hcut
        have hpc : p < cut := by omega
        have hx : slice data (p - pre.length) (cut - pre.length) = slice (pre ++ data) p cut :=
          slice_data hlo (by omega)
        have hxl : (slice data (p - pre.length) (cut - pre.length)).length = cut - p := by
          rw [hx, length_slice_of_le (by omega)]
        set s' := s.chunk own (slice data (p - pre.length) (cut - pre.length)) cut boundary with hs'
        have hwhole' : s'.whole = crc32 (slice (pre ++ data) pre.length cut) := by
          have hw : s'.whole = crc32Combine s.whole (crc32 (slice data (p - pre.length) (cut - pre.length)))
              (slice data (p - pre.length) (cut - pre.length)).length := by
            rw [hs', HashPass.chunk]
            dsimp only
            split_ifs
            · rfl
            · rfl
            · rfl
          rw [hw, hwhole, crc32Combine_crc32, hx, slice_append_slice _ hlo hpc.le]
        have hown' : own = true → s'.ownAt = max start cut ∧
          Hashing (pre ++ data) start s'.ownAt s'.ownCrc s'.ownRow := by
          intro ho
          obtain ⟨hat, hh⟩ := hown ho
          rw [hs', HashPass.chunk]
          dsimp only
          by_cases hlt : s.ownAt < cut
          · have hsp : start ≤ p := hbound.2 start hstart (by omega)
            have hatp : s.ownAt = p := by omega
            rw [hatp] at hh hlt
            have hstep := hh.step hstart hp hlen (c := crc32Combine s.ownCrc
              (crc32 (slice data (p - pre.length) (cut - pre.length)))
              (slice data (p - pre.length) (cut - pre.length)).length)
              (by rw [hh.part, crc32Combine_crc32, hx])
            rw [if_pos ⟨ho, by omega⟩]
            by_cases hend : cut = boundary
            · rw [if_pos hend, if_pos hend] at hstep
              rw [if_pos hend]
              exact ⟨by dsimp only; omega, hstep⟩
            · rw [if_neg hend, if_neg hend] at hstep
              rw [if_neg hend]
              exact ⟨by dsimp only; omega, hstep⟩
          · rw [if_neg (fun hc => hlt hc.2)]
            exact ⟨by dsimp only; omega, hh⟩
        have hoff : own = false → s'.ownAt = s.ownAt ∧ s'.ownCrc = s.ownCrc ∧ s'.ownRow = s.ownRow := by
          intro ho
          rw [hs', HashPass.chunk]
          dsimp only
          rw [if_neg (by rw [ho]; simp)]
          exact ⟨rfl, rfl, rfl⟩
        obtain ⟨h1, h2, h3⟩ := ih (stop - cut) (by omega) rfl (by omega) (by omega) hwhole' hown'
        refine ⟨h1, h2, fun ho => ?_⟩
        obtain ⟨e1, e2, e3⟩ := h3 ho
        obtain ⟨f1, f2, f3⟩ := hoff ho
        exact ⟨e1.trans f1, e2.trans f2, e3.trans f3⟩
      · have hps : p = stop := by omega
        subst hps
        rw [if_neg hp]
        refine ⟨?_, hown, fun _ => ⟨rfl, rfl, rfl⟩⟩
        rw [hwhole, hstop, ← slice_data le_rfl (by omega), Nat.sub_self, Nat.add_sub_cancel_left, slice_zero_length]

end Own

end AlignedWriter

/-! ## The helper's row -/

lemma length_pieceCrcs {x : Bytes} {m : ℕ} (hx : x.length = m * PIECE) :
    (pieceCrcs x).length = m := by
  rw [pieceCrcs, List.length_map, List.length_range, hx,
    Nat.mul_div_cancel m (by rw [PIECE_eq]; omega)]

/-- Whole pieces read back behind the row go on with it. -/
lemma Hashed.extend {out : Bytes} {start : ℕ} {row : List (BitVec 32)} (h : Hashed out start row)
    {m : ℕ} (hle : start + (row.length + m) * PIECE ≤ out.length) :
    Hashed out start
    (row ++
    pieceCrcs (slice out (start + row.length * PIECE) (start + (row.length + m) * PIECE))) := by
  have hl : (slice out (start + row.length * PIECE) (start + (row.length + m) * PIECE)).length
    = m * PIECE := by
    rw [length_slice_of_le hle, PIECE_eq]
    omega
  intro i hi
  rw [List.length_append, length_pieceCrcs hl] at hi
  by_cases hlast : i < row.length
  · obtain ⟨hle', hrow⟩ := h i hlast
    exact ⟨hle', by rw [List.getElem?_append_left hlast, hrow]⟩
  · obtain ⟨j, rfl⟩ := Nat.exists_eq_add_of_le (not_lt.mp hlast)
    have hj : j < m := by omega
    have hpieces : (row.length + j + 1) * PIECE ≤ (row.length + m) * PIECE :=
      Nat.mul_le_mul_right _ (by omega)
    refine ⟨by omega, ?_⟩
    rw [List.getElem?_append_right (by omega), Nat.add_sub_cancel_left, pieceCrcs,
      List.getElem?_map,
      List.getElem?_range (by rw [hl, Nat.mul_div_cancel m (by rw [PIECE_eq]; omega)]; exact hj),
      Option.map_some, slice_slice _ _ _ _ _ (by rw [PIECE_eq]; omega)]
    have h1 : start + row.length * PIECE + j * PIECE = start + (row.length + j) * PIECE := by ring
    have h2 : start + row.length * PIECE + (j + 1) * PIECE
      = start + (row.length + j + 1) * PIECE := by ring
    rw [h1, h2]

/-- What the thread has loaded of the file's length is no more than the file. -/
def Pc.Within (len : ℕ) : Pc → Prop
  | .landed l => l ≤ len
  | .hash l => l ≤ len
  | .range l stop => l ≤ len ∧ stop ≤ len
  | .hashing l _ _ _ => l ≤ len
  | .hashed l _ _ => l ≤ len
  | .turned l => l ≤ len
  | .stopping l => l ≤ len
  | .top => True
  | .done => True

/-- The thread is past its look at whether there is a section to hash. -/
def Pc.Hashes : Pc → Prop
  | .hash _ => True
  | .range _ _ => True
  | .hashing _ _ _ _ => True
  | .hashed _ _ _ => True
  | _ => False

/-- Where the thread stands against a row of `n` pieces from `start`, `t` being the word that says
how far it goes: the word says so, but for the pieces of the turn in progress. -/
def Pc.Place (len start n t : ℕ) : Pc → Prop
  | .hashing _ first off stop =>
      (t = first ∧ off = start + n * PIECE ∧ first ≤ off ∧ off ≤ stop ∧ PIECE ∣ stop - off ∧
        (off < stop → stop ≤ len)) ∨ (first = off ∧ off = stop ∧ t = start + n * PIECE)
  | .hashed _ first off => if first < off then off = start + n * PIECE else t = start + n * PIECE
  | _ => t = start + n * PIECE

/-- **The helper's invariant**: its row is the CRCs of the file's pieces from the section's first
boundary on. -/
structure Helper.Ok (file : Bytes) (start : Option ℕ) (h : Helper) : Prop where
  landed : h.landed ≤ file.length
  within : h.pc.Within file.length
  idle : h.hashFrom = none → h.row = [] ∧ ¬h.pc.Hashes
  hashes : ∀ f, h.hashFrom = some f → start = some f ∧ Hashed file f h.row ∧
    ∃ t k, h.hashedTo = some t ∧ t = f + k * PIECE ∧ k ≤ h.row.length ∧
    h.pc.Place file.length f h.row.length t

namespace Helper

variable {file : Bytes} {start : Option ℕ} {h : Helper}

/-- A turn of the thread that only moves it on. -/
lemma Ok.move (ok : h.Ok file start) (pc : Pc) (hw : pc.Within file.length)
    (hi : pc.Hashes → h.pc.Hashes ∨ h.hashFrom ≠ none)
    (hp : ∀ f t, h.hashFrom = some f → h.hashedTo = some t →
      h.pc.Place file.length f h.row.length t →
      pc.Place file.length f h.row.length t) : ({ h with pc := pc } : Helper).Ok file start where
  landed := ok.landed
  within := hw
  idle := fun hn => by
    obtain ⟨hrow, hnot⟩ := ok.idle hn
    exact ⟨hrow, fun hh => (hi hh).elim hnot (fun hne => hne hn)⟩
  hashes := fun f hf => by
    obtain ⟨hs, hrow, t, k, ht, htk, hk, hpl⟩ := ok.hashes f hf
    exact ⟨hs, hrow, t, k, ht, htk, hk, hp f t hf ht hpl⟩

/-- The read of the file: what is hashed is whole pieces, straight behind the row. -/
lemma Ok.hashChunk (ok : h.Ok file start) {l first off stop : ℕ}
    (hpc : h.pc = .hashing l first off stop) (hlt : off < stop)
    (reads : Bool) : (if off < stop then h.hashChunk file reads l first off stop
      else ({ h with pc := .hashed l first off } : Helper)).Ok file start := by
  have hw := ok.within
  rw [hpc] at hw
  rw [if_pos hlt, Helper.hashChunk]
  by_cases hreads : reads = true ∧ off + min (stop - off) READ ≤ file.length
  · rw [if_pos hreads]
    refine ⟨ok.landed, hw, fun hn => ?_, fun f hf => ?_⟩
    · exact absurd (by rw [hpc]; trivial) (ok.idle hn).2
    · obtain ⟨hs, hrow, t, k, ht, htk, hk, hpl⟩ := ok.hashes f hf
      rw [hpc] at hpl
      rcases hpl with ⟨htf, hoff, hfo, hos, hdvd, hlen⟩ | ⟨-, hos, -⟩
      · obtain ⟨m, hm⟩ : PIECE ∣ min (stop - off) READ := by
          rcases min_choice (stop - off) READ with hc | hc
          · rw [hc]
            exact hdvd
          · rw [hc, READ, PIECE, PIECE_SHIFT]
            exact ⟨64, by norm_num⟩
        have hend : off + min (stop - off) READ = f + (h.row.length + m) * PIECE := by
          rw [hm, hoff]
          ring
        have hle := hreads.2
        have hnext : (h.row ++ pieceCrcs (slice file off (off + min (stop - off) READ))).length = h.row.length + m := by
          have hl : (slice file off (off + min (stop - off) READ)).length = m * PIECE := by
            rw [length_slice_of_le hle, Nat.add_sub_cancel_left, hm, Nat.mul_comm]
          rw [List.length_append, length_pieceCrcs hl]
        refine ⟨hs, ?_, t, k, ht, htk, by rw [hnext]; omega, ?_⟩
        · dsimp only
          rw [hend, hoff]
          exact hrow.extend (by rw [← hend]; exact hle)
        · dsimp only
          rw [hnext]
          refine Or.inl ⟨htf, hend, by omega, by omega, ?_, fun _ => hlen hlt⟩
          have hsub : stop - (off + min (stop - off) READ) = stop - off - min (stop - off) READ := by omega
          rw [hsub]
          exact Nat.dvd_sub hdvd ⟨m, hm⟩
      · omega
  · rw [if_neg hreads]
    refine ok.move (.hashed l first off) hw (fun _ => Or.inl (by rw [hpc]; trivial))
      (fun f t _ _ hp => ?_)
    rw [hpc] at hp
    rw [Pc.Place]
    rcases hp with ⟨htf, hoff, hfo, -, -, -⟩ | ⟨-, hos, -⟩
    · split_ifs
      · exact hoff
      · omega
    · omega

/-- **One access of the thread keeps the invariant.** -/
lemma Ok.step (ok : h.Ok file start) (reads : Bool) : (h.step file reads).Ok file start := by
  have hw := ok.within
  rw [Helper.step]
  cases hpc : h.pc with
  | top =>
      refine ok.move (.landed h.landed) ok.landed (fun hh => hh.elim) (fun f t _ _ hp => ?_)
      rw [hpc] at hp
      exact hp
  | landed l =>
      rw [hpc] at hw
      dsimp only
      split
      · refine ok.move (.turned l) hw (fun hh => hh.elim) (fun f t _ _ hp => ?_)
        rw [hpc] at hp
        exact hp
      · rename_i hf
        refine ok.move (.hash l) hw (fun _ => Or.inr (by rw [hf]; simp)) (fun f t _ _ hp => ?_)
        rw [hpc] at hp
        exact hp
  | hash l =>
      rw [hpc] at hw
      dsimp only
      split
      · refine ok.move (.range l l) ⟨hw, hw⟩ (fun _ => Or.inl (by rw [hpc]; trivial)) (fun f t _ _ hp => ?_)
        rw [hpc] at hp
        exact hp
      · rename_i stop _
        refine ok.move (.range l (min l stop)) ⟨hw, (min_le_left _ _).trans hw⟩
          (fun _ => Or.inl (by rw [hpc]; trivial)) (fun f t _ _ hp => ?_)
        rw [hpc] at hp
        exact hp
  | range l stop =>
      rw [hpc] at hw
      dsimp only
      split
      · rename_i ht
        refine ok.move (.turned l) hw.1 (fun hh => hh.elim) (fun f t _ ht' _ => ?_)
        rw [ht] at ht'
        simp at ht'
      · rename_i first ht
        refine ok.move (.hashing l first first (first + (stop - first) / PIECE * PIECE)) hw.1
          (fun _ => Or.inl (by rw [hpc]; trivial)) (fun f t _ ht' hp => ?_)
        rw [hpc] at hp
        rw [ht, Option.some.injEq] at ht'
        subst ht'
        have hstop := hw.2
        refine Or.inl ⟨rfl, hp, le_rfl, Nat.le_add_right _ _, ?_, fun hlt => ?_⟩
        · rw [Nat.add_sub_cancel_left]
          exact dvd_mul_left _ _
        · have := Nat.div_mul_le_self (stop - first) PIECE
          omega
  | hashing l first off stop =>
      rw [hpc] at hw
      by_cases hlt : off < stop
      · exact ok.hashChunk hpc hlt reads
      · simp only [if_neg hlt]
        refine ok.move (.hashed l first off) hw (fun _ => Or.inl (by rw [hpc]; trivial)) (fun f t _ _ hp => ?_)
        rw [hpc] at hp
        rw [Pc.Place]
        rcases hp with ⟨htf, hoff, hfo, -, -, -⟩ | ⟨hfo, -, ht⟩
        · split_ifs
          · exact hoff
          · omega
        · rw [if_neg (by omega)]
          exact ht
  | hashed l first off =>
      rw [hpc] at hw
      refine ⟨ok.landed, hw, fun hn => ?_, fun f hf => ?_⟩
      · exact absurd (by rw [hpc]; trivial) (ok.idle hn).2
      · obtain ⟨hs, hrow, t, k, ht, htk, hk, hpl⟩ := ok.hashes f hf
        rw [hpc, Pc.Place] at hpl
        by_cases hlt : first < off
        · rw [if_pos hlt] at hpl
          exact ⟨hs, hrow, off, h.row.length, if_pos hlt, hpl, le_rfl, hpl⟩
        · rw [if_neg hlt] at hpl
          exact ⟨hs, hrow, t, k, (if_neg hlt).trans ht, htk, hk, hpl⟩
  | turned l =>
      rw [hpc] at hw
      dsimp only
      split_ifs
      · refine ok.move (.stopping l) hw (fun hh => hh.elim) (fun f t _ _ hp => ?_)
        rw [hpc] at hp
        exact hp
      · refine ok.move .top trivial (fun hh => hh.elim) (fun f t _ _ hp => ?_)
        rw [hpc] at hp
        exact hp
  | stopping l =>
      dsimp only
      split_ifs
      · refine ok.move .top trivial (fun hh => hh.elim) (fun f t _ _ hp => ?_)
        rw [hpc] at hp
        exact hp
      · refine ok.move .done trivial (fun hh => hh.elim) (fun f t _ _ hp => ?_)
        rw [hpc] at hp
        exact hp
  | done => exact ok

/-- **A run of the thread keeps the invariant.** -/
lemma Ok.steps (ok : h.Ok file start) (reads : List Bool) : (h.steps file reads).Ok file start := by
  rw [Helper.steps]
  induction reads generalizing h with
  | nil => exact ok
  | cons r reads ih => exact ih (ok.step r)

/-- What is written behind the file changes nothing for the helper. -/
lemma Ok.append (ok : h.Ok file start) (x : Bytes) : h.Ok (file ++ x) start := by
  have hle : file.length ≤ (file ++ x).length := by rw [List.length_append]; omega
  refine ⟨ok.landed.trans hle, ?_, ok.idle, fun f hf => ?_⟩
  · have hw := ok.within
    cases hpc : h.pc with
    | top => trivial
    | landed l => rw [hpc] at hw; exact hw.trans hle
    | hash l => rw [hpc] at hw; exact hw.trans hle
    | range l stop => rw [hpc] at hw; exact ⟨hw.1.trans hle, hw.2.trans hle⟩
    | hashing l first off stop => rw [hpc] at hw; exact hw.trans hle
    | hashed l first off => rw [hpc] at hw; exact hw.trans hle
    | turned l => rw [hpc] at hw; exact hw.trans hle
    | stopping l => rw [hpc] at hw; exact hw.trans hle
    | done => trivial
  · obtain ⟨hs, hrow, t, k, ht, htk, hk, hpl⟩ := ok.hashes f hf
    refine ⟨hs, hrow.append x, t, k, ht, htk, hk, ?_⟩
    cases hpc : h.pc with
    | hashing l first off stop =>
        rw [hpc] at hpl
        rcases hpl with ⟨h1, h2, h3, h4, h5, h6⟩ | hstale
        · exact Or.inl ⟨h1, h2, h3, h4, h5, fun hlt => (h6 hlt).trans hle⟩
        · exact Or.inr hstale
    | top => rw [hpc] at hpl; exact hpl
    | landed l => rw [hpc] at hpl; exact hpl
    | hash l => rw [hpc] at hpl; exact hpl
    | range l stop => rw [hpc] at hpl; exact hpl
    | hashed l first off => rw [hpc] at hpl; exact hpl
    | turned l => rw [hpc] at hpl; exact hpl
    | stopping l => rw [hpc] at hpl; exact hpl
    | done => rw [hpc] at hpl; exact hpl

/-! ## A helper that takes over -/

end Helper

/-- The thread has seen nothing of the file. -/
def Pc.Quiet : Pc → Prop
  | .landed l => l = 0
  | .hash l => l = 0
  | .range l stop => l = 0 ∧ stop = 0
  | .hashing l first off stop => l = 0 ∧ off = first ∧ stop = first
  | .hashed l first off => l = 0 ∧ off = first
  | .turned l => l = 0
  | .stopping l => l = 0
  | .top => True
  | .done => True

namespace Helper

variable {file : Bytes} {start : Option ℕ} {h : Helper}

/-- Told of nothing, the thread moves and changes nothing. -/
lemma quiet_step (file : Bytes) (hl : h.landed = 0) (hq : h.pc.Quiet) (reads : Bool) :
    ∃ pc : Pc, pc.Quiet ∧ h.step file reads = { h with pc := pc } := by
  rw [Helper.step]
  cases hpc : h.pc with
  | top => exact ⟨.landed h.landed, hl, rfl⟩
  | landed l =>
      rw [hpc] at hq
      dsimp only
      split
      · exact ⟨.turned l, hq, rfl⟩
      · exact ⟨.hash l, hq, rfl⟩
  | hash l =>
      rw [hpc] at hq
      have hz : l = 0 := hq
      dsimp only
      split
      · exact ⟨.range l l, ⟨hz, hz⟩, rfl⟩
      · rename_i stop _
        exact ⟨.range l (min l stop), ⟨hz, by omega⟩, rfl⟩
  | range l stop =>
      rw [hpc] at hq
      obtain ⟨hz, hs⟩ := hq
      dsimp only
      split
      · exact ⟨.turned l, hz, rfl⟩
      · rename_i first _
        refine ⟨.hashing l first first (first + (stop - first) / PIECE * PIECE), ⟨hz, rfl, ?_⟩, rfl⟩
        rw [hs, Nat.zero_sub, Nat.zero_div, Nat.zero_mul, Nat.add_zero]
  | hashing l first off stop =>
      rw [hpc] at hq
      obtain ⟨hz, ho, hs⟩ := hq
      simp only [if_neg (show ¬off < stop by omega)]
      exact ⟨.hashed l first off, ⟨hz, ho⟩, rfl⟩
  | hashed l first off =>
      rw [hpc] at hq
      obtain ⟨hz, ho⟩ := hq
      simp only [if_neg (show ¬first < off by omega)]
      exact ⟨.turned l, hz, rfl⟩
  | turned l =>
      rw [hpc] at hq
      dsimp only
      split_ifs
      · exact ⟨.stopping l, hq, rfl⟩
      · exact ⟨.top, trivial, rfl⟩
  | stopping l =>
      dsimp only
      split_ifs
      · exact ⟨.top, trivial, rfl⟩
      · exact ⟨.done, trivial, rfl⟩
  | done => exact ⟨h.pc, by rw [hpc]; trivial, rfl⟩

lemma quiet_steps (file : Bytes) (hl : h.landed = 0) (reads : List Bool) : h.pc.Quiet →
    ∃ pc : Pc, pc.Quiet ∧ h.steps file reads = { h with pc := pc } := by
  rw [Helper.steps]
  induction reads generalizing h with
  | nil => exact fun hq => ⟨h.pc, hq, rfl⟩
  | cons r reads ih =>
      intro hq
      obtain ⟨pc, hpc, hstep⟩ := quiet_step file hl hq r
      obtain ⟨pc', hpc', hsteps⟩ := ih (h := { h with pc := pc }) hl hpc
      rw [List.foldl_cons, hstep, hsteps]
      exact ⟨pc', hpc', rfl⟩

/-- With nothing to hash, the thread moves and changes nothing. -/
lemma idle_step (file : Bytes) (hf : h.hashFrom = none) (hq : ¬h.pc.Hashes) (reads : Bool) :
    ∃ pc : Pc, ¬pc.Hashes ∧ h.step file reads = { h with pc := pc } := by
  rw [Helper.step]
  cases hpc : h.pc with
  | top => exact ⟨.landed h.landed, id, rfl⟩
  | landed l =>
      dsimp only
      rw [hf]
      exact ⟨.turned l, id, rfl⟩
  | hash l => exact absurd (by rw [hpc]; trivial) hq
  | range l stop => exact absurd (by rw [hpc]; trivial) hq
  | hashing l first off stop => exact absurd (by rw [hpc]; trivial) hq
  | hashed l first off => exact absurd (by rw [hpc]; trivial) hq
  | turned l =>
      dsimp only
      split_ifs
      · exact ⟨.stopping l, id, rfl⟩
      · exact ⟨.top, id, rfl⟩
  | stopping l =>
      dsimp only
      split_ifs
      · exact ⟨.top, id, rfl⟩
      · exact ⟨.done, id, rfl⟩
  | done => exact ⟨h.pc, hq, rfl⟩

lemma idle_steps (file : Bytes) (hf : h.hashFrom = none) (reads : List Bool) : ¬h.pc.Hashes →
    ∃ pc : Pc, ¬pc.Hashes ∧ h.steps file reads = { h with pc := pc } := by
  rw [Helper.steps]
  induction reads generalizing h with
  | nil => exact fun hq => ⟨h.pc, hq, rfl⟩
  | cons r reads ih =>
      intro hq
      obtain ⟨pc, hpc, hstep⟩ := idle_step file hf hq r
      obtain ⟨pc', hpc', hsteps⟩ := ih (h := { h with pc := pc }) hf hpc
      rw [List.foldl_cons, hstep, hsteps]
      exact ⟨pc', hpc', rfl⟩

/-- A thread that sees no section, given one. -/
lemma Ok.begin (ok : h.Ok file none) (hq : ¬h.pc.Hashes) (hrow : h.row = []) {f : ℕ}
    (ht : h.hashedTo = some f) : ({ h with hashFrom := some f } : Helper).Ok file (some f) := by
  refine ⟨ok.landed, ok.within, fun hn => absurd hn (Option.some_ne_none f), fun f' hf => ?_⟩
  rw [Option.some.injEq] at hf
  subst hf
  refine ⟨rfl, by rw [hrow]; exact hashed_nil file f, f, 0, ht, by omega, Nat.zero_le _, ?_⟩
  dsimp only
  rw [hrow]
  cases hpc : h.pc with
  | hashing l first off stop => exact absurd (by rw [hpc]; trivial) hq
  | hashed l first off => exact absurd (by rw [hpc]; trivial) hq
  | top => simp [Pc.Place]
  | landed l => simp [Pc.Place]
  | hash l => simp [Pc.Place]
  | range l stop => simp [Pc.Place]
  | turned l => simp [Pc.Place]
  | stopping l => simp [Pc.Place]
  | done => simp [Pc.Place]

/-- A thread that has seen nothing keeps every row. -/
lemma Ok.of_quiet {f : ℕ} {row : List (BitVec 32)} (hl : h.landed = 0) (hq : h.pc.Quiet)
    (hf : h.hashFrom = some f) (hs : start = some f) (hrow : Hashed file f row) (hh : h.row = row)
    (ht : h.hashedTo = some (f + row.length * PIECE)) : h.Ok file start := by
  subst hh
  refine ⟨by omega, ?_, fun hn => absurd hn (by rw [hf]; simp), fun f' hf' => ?_⟩
  · cases hpc : h.pc with
    | top => trivial
    | landed l => rw [hpc] at hq; exact (show l = 0 from hq) ▸ Nat.zero_le _
    | hash l => rw [hpc] at hq; exact (show l = 0 from hq) ▸ Nat.zero_le _
    | range l stop => rw [hpc] at hq; exact ⟨hq.1 ▸ Nat.zero_le _, hq.2 ▸ Nat.zero_le _⟩
    | hashing l first off stop => rw [hpc] at hq; exact hq.1 ▸ Nat.zero_le _
    | hashed l first off => rw [hpc] at hq; exact hq.1 ▸ Nat.zero_le _
    | turned l => rw [hpc] at hq; exact (show l = 0 from hq) ▸ Nat.zero_le _
    | stopping l => rw [hpc] at hq; exact (show l = 0 from hq) ▸ Nat.zero_le _
    | done => trivial
  · rw [hf, Option.some.injEq] at hf'
    subst hf'
    refine ⟨hs, hrow, _, h.row.length, ht, rfl, le_rfl, ?_⟩
    cases hpc : h.pc with
    | hashing l first off stop =>
        rw [hpc] at hq
        exact Or.inr ⟨hq.2.1.symm, by rw [hq.2.1, hq.2.2], rfl⟩
    | hashed l first off =>
        rw [hpc] at hq
        rw [Pc.Place, if_neg (by rw [hq.2]; exact lt_irrefl _)]
    | top => rfl
    | landed l => rfl
    | hash l => rfl
    | range l stop => rfl
    | turned l => rfl
    | stopping l => rfl
    | done => rfl

/-- A helper just started, over a section or over none. -/
lemma spawn_ok (file : Bytes) (keySection : Option ℕ) :
    (Helper.spawn keySection).Ok file (keySection.map (fun s => alignUp s PIECE)) := by
  refine ⟨Nat.zero_le _, trivial, fun _ => ⟨rfl, id⟩, fun f hf => ?_⟩
  have hto : (Helper.spawn keySection).hashedTo = some f := hf
  exact ⟨hf, hashed_nil file f, f, 0, hto, by simp, le_rfl, by simp [Helper.spawn, Pc.Place]⟩

/-- A helper that hashes nothing has no section of its own. -/
lemma Ok.restart (ok : h.Ok file start) (hf : h.hashFrom = none) {start' : Option ℕ} :
    h.Ok file start' :=
  ⟨ok.landed, ok.within, ok.idle, fun f hf' => absurd hf' (by rw [hf]; simp)⟩

/-- What the helper hands over at the finish. -/
lemma Ok.finished (ok : h.Ok file start) {r : HelperRow} (hr : h.finished = some r) :
    start = some r.start ∧ Hashed file r.start r.crcs ∧ ∃ k, r.stop = r.start + k * PIECE ∧
    k ≤ r.crcs.length := by
  rw [Helper.finished] at hr
  cases hf : h.hashFrom with
  | none =>
      rw [hf] at hr
      simp at hr
  | some f =>
      rw [hf] at hr
      simp only [Option.some.injEq] at hr
      subst hr
      obtain ⟨hs, hrow, t, k, ht, htk, hk, -⟩ := ok.hashes f hf
      refine ⟨hs, hrow, k, ?_, hk⟩
      dsimp only
      rw [ht, Option.getD_some, htk]

end Helper

namespace AlignedWriter

/-! ## The writer's invariant -/

/-- Where the section's first whole piece begins. -/
def firstPiece (w : AlignedWriter) : Option ℕ := w.keySection.map (fun s => alignUp s PIECE)

/-- **The file and the buffer are what was written, and the helper hashes the file.** -/
structure Base (w : AlignedWriter) (out : Bytes) : Prop where
  bytes : w.file ++ w.buf = out
  written : w.written = w.file.length
  piece : 0 < w.piece
  helper : ∀ h, w.helper = some h → h.Ok w.file w.firstPiece
  ownFrom : ∀ s, w.keySection = some s → w.ownFrom = alignUp s PIECE

/-- The buffer's room between two writes. -/
def Room (w : AlignedWriter) : Prop := w.buf.length < w.toBoundary

/-- **The writer's own row** is of the output's pieces, and where the writer still hashes it stands
at the output's end. -/
structure Own (w : AlignedWriter) (out : Bytes) : Prop where
  row : w.keySection.isSome → Hashed out w.ownFrom w.ownRow
  live : w.keySection.isSome → w.ownOn = true → w.ownAt = max w.ownFrom out.length ∧
    Hashing out w.ownFrom w.ownAt w.ownCrc w.ownRow

/-- What a piece that lands leaves of the writer's own hashing: it stands where it stood, or the
helper took it over. -/
structure Kept (w w' : AlignedWriter) : Prop where
  piece : w'.piece = w.piece
  keySection : w'.keySection = w.keySection
  ownFrom : w'.ownFrom = w.ownFrom
  row : w'.ownRow = w.ownRow ∨ w'.ownRow = []
  live : w'.ownOn = true → w.ownOn = true ∧ w'.ownAt = w.ownAt ∧ w'.ownCrc = w.ownCrc ∧
    w'.ownRow = w.ownRow
  off : w.ownOn = false → w'.ownRow = w.ownRow ∧ w'.ownAt = w.ownAt ∧ w'.ownCrc = w.ownCrc

/-- What it leaves of the bytes. -/
structure Landed (w w' : AlignedWriter) : Prop extends Kept w w' where
  file : w'.file = w.file
  buf : w'.buf = w.buf
  written : w'.written = w.written

lemma Kept.refl (w : AlignedWriter) : Kept w w :=
  ⟨rfl, rfl, rfl, Or.inl rfl, fun h => ⟨h, rfl, rfl, rfl⟩, fun _ => ⟨rfl, rfl, rfl⟩⟩

lemma Landed.refl (w : AlignedWriter) : Landed w w := ⟨Kept.refl w, rfl, rfl, rfl⟩

lemma Kept.trans {w w' w'' : AlignedWriter} (k : Kept w w') (k' : Kept w' w'') : Kept w w'' := by
  refine ⟨k'.piece.trans k.piece, k'.keySection.trans k.keySection, k'.ownFrom.trans k.ownFrom, ?_,
    fun hon => ?_, fun hoff => ?_⟩
  · rcases k'.row with hr | hr
    · rw [hr]
      exact k.row
    · exact Or.inr hr
  · obtain ⟨hon', hat', hcrc', hrow'⟩ := k'.live hon
    obtain ⟨hon0, hat, hcrc, hrow⟩ := k.live hon'
    exact ⟨hon0, hat'.trans hat, hcrc'.trans hcrc, hrow'.trans hrow⟩
  · have hoff' : w'.ownOn = false :=
      Bool.eq_false_iff.mpr (fun hon => Bool.false_ne_true (hoff ▸ (k.live hon).1))
    obtain ⟨hrow, hat, hcrc⟩ := k.off hoff
    obtain ⟨hrow', hat', hcrc'⟩ := k'.off hoff'
    exact ⟨hrow'.trans hrow, hat'.trans hat, hcrc'.trans hcrc⟩

lemma Landed.trans {w w' w'' : AlignedWriter} (l : Landed w w') (l' : Landed w' w'') :
    Landed w w'' :=
  ⟨l.toKept.trans l'.toKept, l'.file.trans l.file, l'.buf.trans l.buf, l'.written.trans l.written⟩

variable (sched : Schedule) {w : AlignedWriter} {out : Bytes}

/-- A word for the helper, and the helper's run, leave the writer as it was. -/
lemma told_landed (f : Helper → Helper) : Landed w ((w.withHelper f).pause sched) :=
  ⟨⟨rfl, rfl, rfl, Or.inl rfl, fun h => ⟨h, rfl, rfl, rfl⟩, fun _ => ⟨rfl, rfl, rfl⟩⟩, rfl,
    rfl, rfl⟩

lemma pause_landed : Landed w (w.pause sched) :=
  ⟨⟨rfl, rfl, rfl, Or.inl rfl, fun h => ⟨h, rfl, rfl, rfl⟩, fun _ => ⟨rfl, rfl, rfl⟩⟩, rfl,
    rfl, rfl⟩

lemma hushed_landed : Landed w { w with ownOn := false } :=
  ⟨⟨rfl, rfl, rfl, Or.inl rfl, fun h => absurd h Bool.false_ne_true, fun _ => ⟨rfl, rfl, rfl⟩⟩, rfl,
    rfl, rfl⟩

lemma Landed.room {w' : AlignedWriter} (l : Landed w w') (hroom : w.Room) : w'.Room := by
  rw [Room, toBoundary, pos, l.buf, l.piece, l.written]
  exact hroom

/-- The bytes stand in a writer left so, where the helper it has is sound. -/
lemma Base.landed {w' : AlignedWriter} (b : w.Base out) (l : Landed w w')
    (hh : ∀ h, w'.helper = some h → h.Ok w.file w.firstPiece) : w'.Base out := by
  refine ⟨?_, ?_, l.piece ▸ b.piece, fun h hh' => ?_, fun s hs => ?_⟩
  · rw [l.file, l.buf]
    exact b.bytes
  · rw [l.written, l.file]
    exact b.written
  · rw [l.file, firstPiece, l.keySection]
    exact hh h hh'
  · rw [l.ownFrom]
    exact b.ownFrom s (l.keySection ▸ hs)

lemma pause_base (b : w.Base out) : (w.pause sched).Base out := by
  refine ⟨b.bytes, b.written, b.piece, fun h hh => ?_, b.ownFrom⟩
  rw [pause, Option.map_eq_some_iff] at hh
  obtain ⟨h0, hh0, rfl⟩ := hh
  exact (b.helper h0 hh0).steps _

/-- A word the writer stores for the helper. -/
lemma Base.told (b : w.Base out) {f : Helper → Helper}
    (hf : ∀ h, h.Ok w.file w.firstPiece → (f h).Ok w.file w.firstPiece) :
    ((w.withHelper f).pause sched).Base out := by
  refine pause_base sched ⟨b.bytes, b.written, b.piece, fun h hh => ?_, b.ownFrom⟩
  rw [withHelper, Option.map_eq_some_iff] at hh
  obtain ⟨h0, hh0, rfl⟩ := hh
  exact hf h0 (b.helper h0 hh0)

lemma announce_base (b : w.Base out) : (w.announce sched).Base out :=
  b.told sched (fun _ h => ⟨b.written.le, h.within, h.idle, h.hashes⟩)

/-- A helper that starts finds a row to take over, where the writer hashed the section for it, or
none. -/
lemma spawn_cases (w : AlignedWriter) :
    (if w.helperHashes && w.ownOn then w.ownRowSoFar else (none, w)) = (none, w)
    ∨ ∃ s, w.helperHashes = true ∧ w.ownOn = true ∧ w.keySection = some s := by
  by_cases hover : (w.helperHashes && w.ownOn) = true
  · rw [if_pos hover, ownRowSoFar]
    rw [Bool.and_eq_true] at hover
    cases hs : w.keySection with
    | none => exact Or.inl rfl
    | some s => exact Or.inr ⟨s, hover.1, hover.2, rfl⟩
  · rw [if_neg hover]
    exact Or.inl rfl

/-- The helper started with no row of the writer's to take over. -/
lemma spawnHelper_fresh (hown : (if w.helperHashes && w.ownOn then w.ownRowSoFar else (none, w)) = (none, w)) :
    w.spawnHelper sched = pause sched { w with ownOn := w.ownOn && !w.helperHashes,
                                               helper := some (Helper.spawn (if w.helperHashes then w.keySection else none)) } := by
  rw [spawnHelper, hown]

/-- The helper started on a section, the writer's pieces put in its row and its run moved behind
them. -/
lemma spawnHelper_over {s : ℕ} (hhash : w.helperHashes = true) (hon : w.ownOn = true)
    (hs : w.keySection = some s) :
    w.spawnHelper sched
      =
      (((((pause sched
      { w with ownRow := [], ownOn := false, helper := some (Helper.spawn (some s)) })
      ).withHelper (fun h => { h with row := w.ownRow })).pause sched).withHelper
        (fun h => h.setHashedTo (w.ownFrom + w.ownRow.length * PIECE))).pause sched := by
  simp only [spawnHelper, hhash, hon, ownRowSoFar, hs, Bool.and_true, if_true, Bool.not_true,
    Bool.and_false]

lemma spawnHelper_landed : Landed w (w.spawnHelper sched) := by
  rcases spawn_cases w with hown | ⟨s, hhash, hon, hs⟩
  · rw [spawnHelper_fresh sched hown]
    refine ⟨⟨rfl, rfl, rfl, Or.inl rfl, fun h => ?_, fun _ => ⟨rfl, rfl, rfl⟩⟩, rfl, rfl, rfl⟩
    exact ⟨((Bool.and_eq_true _ _).mp h).1, rfl, rfl, rfl⟩
  · rw [spawnHelper_over sched hhash hon hs]
    have htaken :
      Landed w { w with ownRow := [], ownOn := false, helper := some (Helper.spawn (some s)) } := by
      refine ⟨⟨rfl, rfl, rfl, Or.inr rfl, fun h => absurd h Bool.false_ne_true, fun h => ?_⟩, rfl, rfl, rfl⟩
      rw [hon] at h
      exact absurd h.symm Bool.false_ne_true
    exact ((htaken.trans (pause_landed sched)).trans (told_landed sched _)).trans (told_landed sched _)

/-- The file an `ahead` long: the helper starts on the section, or takes over a row of the file's
pieces. -/
lemma spawnHelper_base (b : w.Base out) (hbuf : w.buf = []) (hrow : w.ownOn = true → w.keySection.isSome →
    Hashed out w.ownFrom w.ownRow) : (w.spawnHelper sched).Base out := by
  have hfile : w.file = out := by rw [← b.bytes, hbuf, List.append_nil]
  rcases spawn_cases w with hown | ⟨s, hhash, hon, hs⟩
  · rw [spawnHelper_fresh sched hown]
    refine pause_base sched ⟨b.bytes, b.written, b.piece, fun h hh => ?_, b.ownFrom⟩
    rw [Option.some.injEq] at hh
    subst hh
    cases hhash : w.helperHashes with
    | true => exact Helper.spawn_ok w.file w.keySection
    | false => exact (Helper.spawn_ok w.file none).restart rfl
  · refine b.landed (spawnHelper_landed sched) (fun h hh => ?_)
    rw [spawnHelper_over sched hhash hon hs] at hh
    have hfrom : w.ownFrom = alignUp s PIECE := b.ownFrom s hs
    obtain ⟨pc, hq, hsteps⟩ :=
      Helper.quiet_steps w.file (h := Helper.spawn (some s)) rfl (sched w.clock) trivial
    obtain ⟨pc', hq', hsteps'⟩ := Helper.quiet_steps w.file
      (h := { Helper.spawn (some s) with row := w.ownRow, pc := pc }) rfl (sched (w.clock + 1)) hq
    simp only [pause, withHelper, Option.map_some, Option.some.injEq, hsteps, hsteps'] at hh
    subst hh
    refine (Helper.Ok.of_quiet (f := w.ownFrom) rfl hq' ?_ ?_ ?_ rfl rfl).steps _
    · rw [hfrom]
      rfl
    · rw [hfrom]
      exact congrArg (Option.map (fun s => alignUp s PIECE)) hs
    · exact hfile ▸ hrow hon (by rw [hs]; rfl)

lemma landed_spec (b : w.Base out) (hbuf : w.buf = [])
    (hrow : w.ownOn = true → w.keySection.isSome →
    Hashed out w.ownFrom w.ownRow) : (w.landed sched).Base out ∧ Landed w (w.landed sched) := by
  rw [AlignedWriter.landed]
  cases w.helper with
  | some h =>
      exact ⟨announce_base sched b,
        ⟨rfl, rfl, rfl, Or.inl rfl, fun h => ⟨h, rfl, rfl, rfl⟩, fun _ => ⟨rfl, rfl, rfl⟩⟩, rfl,
        rfl, rfl⟩
  | none =>
      dsimp only
      by_cases hstay : w.helperDone = true ∨ w.written < w.ahead
      · rw [if_pos hstay]
        exact ⟨b, Landed.refl w⟩
      · rw [if_neg hstay]
        have hb : (w.spawnHelper sched).Base out := spawnHelper_base sched b hbuf hrow
        have hl : Landed w (w.spawnHelper sched) := spawnHelper_landed sched
        exact ⟨announce_base sched hb,
          ⟨hl.piece, hl.keySection, hl.ownFrom, hl.row, hl.live, hl.off⟩, hl.file, hl.buf,
          hl.written⟩

/-- **The buffer on the file.** -/
lemma writeBuf_spec (b : w.Base out)
    (hrow : w.ownOn = true → w.keySection.isSome → Hashed out w.ownFrom w.ownRow) :
    (w.writeBuf sched).Base out ∧ (w.writeBuf sched).buf = [] ∧ Kept w (w.writeBuf sched) := by
  have hfile : (if w.written = 0 ∧ 0 < min w.headLen w.buf.length ∧ min w.headLen w.buf.length < w.buf.length then
      w.file ++ w.buf.take (min w.headLen w.buf.length) ++ w.buf.drop (min w.headLen w.buf.length) else w.file ++ w.buf)
      = w.file ++ w.buf := by
    split_ifs
    · rw [List.append_assoc, List.take_append_drop]
    · rfl
  rw [writeBuf]
  simp only [hfile]
  have hb :
    ({ w with file := w.file ++ w.buf, written := w.written + w.buf.length, buf := [] } :
    AlignedWriter).Base out := by
    refine ⟨by rw [List.append_nil,
      b.bytes], ?_, b.piece, fun h hh => (b.helper h hh).append _, b.ownFrom⟩
    rw [List.length_append, b.written]
  by_cases hahead : 0 < w.ahead
  · rw [if_pos hahead]
    obtain ⟨hb', hl⟩ := landed_spec sched hb rfl hrow
    exact ⟨hb', hl.buf, ⟨hl.piece, hl.keySection, hl.ownFrom, hl.row, hl.live, hl.off⟩⟩
  · rw [if_neg hahead]
    exact ⟨hb, rfl,
      ⟨rfl, rfl, rfl, Or.inl rfl, fun h => ⟨h, rfl, rfl, rfl⟩, fun _ => ⟨rfl, rfl, rfl⟩⟩⟩

/-- Where the hashing is left, the writer's row still is the output's. -/
lemma Own.kept {w' : AlignedWriter} (o : w.Own out) (k : Kept w w') : w'.Own out := by
  refine ⟨fun hs => ?_, fun hs hon => ?_⟩
  · rw [k.keySection] at hs
    rcases k.row with hr | hr
    · rw [hr, k.ownFrom]
      exact o.row hs
    · rw [hr]
      exact hashed_nil _ _
  · rw [k.keySection] at hs
    obtain ⟨hon1, hstands, hcrc, hr⟩ := k.live hon
    rw [hstands, hcrc, hr, k.ownFrom]
    exact o.live hs hon1

/-! ## A turn of a write -/

lemma Base.pos (b : w.Base out) : w.pos + w.buf.length = out.length := by
  rw [AlignedWriter.pos, b.written, ← b.bytes, List.length_append]

lemma toBoundary_pos (b : w.Base out) : 0 < w.toBoundary := by
  have := Nat.mod_lt w.pos b.piece
  rw [toBoundary]
  omega

/-- What `own_hash` changes. -/
lemma ownHash_eq (w : AlignedWriter) (base : ℕ) (x : Bytes) : ∃ crc row hashed,
    w.ownHash base x = { w with ownCrc := crc, ownRow := row, ownAt := hashed } := by
  rw [ownHash]
  dsimp only
  split_ifs
  · exact ⟨w.ownCrc, w.ownRow, w.ownAt, rfl⟩
  · exact ⟨_, _, _, rfl⟩

/-- **`own_hash`** takes the row and the piece in progress to the end of the bytes. -/
lemma ownHash_spec {base : ℕ} {x : Bytes} (hbase : base = out.length) (hdvd : PIECE ∣ w.ownFrom)
    (hstands : w.ownAt = max w.ownFrom out.length)
    (h : Hashing out w.ownFrom w.ownAt w.ownCrc w.ownRow) :
    (w.ownHash base x).ownAt = max w.ownFrom (out ++ x).length ∧
      Hashing (out ++ x) w.ownFrom (w.ownHash base x).ownAt (w.ownHash base x).ownCrc
      (w.ownHash base x).ownRow := by
  subst hbase
  rw [ownHash, List.length_append]
  dsimp only
  by_cases hend : out.length + x.length ≤ w.ownAt
  · rw [if_pos hend]
    exact ⟨by omega, h.append x⟩
  · rw [if_neg hend]
    refine ⟨by dsimp only; omega, ?_⟩
    have hmax : max w.ownAt out.length = w.ownAt := by omega
    have hspec := @ownHashFrom_spec _ x _ hdvd (out.length + x.length) rfl _ _ _ _ rfl (by omega)
        (by omega) (h.append x)
    rw [hmax]
    exact hspec

/-- The buffer takes `x`, and is written where it is full. -/
lemma fill_spec {x : Bytes} (b : w.Base out) (hx : w.buf.length + x.length ≤ w.toBoundary)
    (hrow : w.ownOn = true → w.keySection.isSome → Hashed (out ++ x) w.ownFrom w.ownRow) :
    let w' := { w with buf := w.buf ++ x }
    let w'' := if w'.buf.length = w'.toBoundary then w'.writeBuf sched else w'
    w''.Base (out ++ x) ∧ w''.Room ∧ Kept w w'' := by
  intro w' w''
  have b' : w'.Base (out ++ x) := by
    refine ⟨?_, b.written, b.piece, b.helper, b.ownFrom⟩
    rw [← b.bytes, List.append_assoc]
  have hlen : w'.buf.length = w.buf.length + x.length := List.length_append
  by_cases hfull : w'.buf.length = w'.toBoundary
  · have hw : w'' = w'.writeBuf sched := if_pos hfull
    obtain ⟨hb, hnil, hk⟩ := writeBuf_spec sched b' hrow
    rw [hw]
    refine ⟨hb, ?_, ⟨hk.piece, hk.keySection, hk.ownFrom, hk.row, hk.live, hk.off⟩⟩
    rw [Room, hnil]
    exact toBoundary_pos hb
  · have hw : w'' = w' := if_neg hfull
    rw [hw]
    refine ⟨b', ?_,
      ⟨rfl, rfl, rfl, Or.inl rfl, fun h => ⟨h, rfl, rfl, rfl⟩, fun _ => ⟨rfl, rfl, rfl⟩⟩⟩
    have hroom : w'.buf.length ≤ w'.toBoundary := by
      rw [hlen]
      exact hx
    exact lt_of_le_of_ne hroom hfull

/-- The writer between two calls, `p` being where its key section started. -/
structure Ok (w : AlignedWriter) (p : Option ℕ) (out : Bytes) : Prop where
  base : w.Base out
  room : w.Room
  own : w.Own out
  sect : w.keySection = p

/-- A turn where the writer hashes what it is given. -/
lemma Ok.push {p : Option ℕ} (ok : w.Ok p out) {x : Bytes}
    (hx : w.buf.length + x.length ≤ w.toBoundary) : (w.push sched x).Ok p (out ++ x) := by
  have hown : ∀ w1 : AlignedWriter, w1.Base out → w1.keySection = p →
      w1.buf.length + x.length ≤ w1.toBoundary → w1.Own (out ++ x) →
      let w' := { w1 with buf := w1.buf ++ x }
      (if w'.buf.length = w'.toBoundary then w'.writeBuf sched else w').Ok p (out ++ x) := by
    intro w1 b1 hs1 hx1 o1 w'
    obtain ⟨hb, hroom, hk⟩ := fill_spec sched b1 hx1 (fun _ => o1.row)
    exact ⟨hb, hroom, o1.kept hk, hk.keySection.trans hs1⟩
  rw [AlignedWriter.push]
  by_cases hhash : w.ownOn = true ∧ w.keySection.isSome = true
  · simp only [if_pos hhash]
    obtain ⟨hstands, hh⟩ := ok.own.live hhash.2 hhash.1
    obtain ⟨s, hs⟩ := Option.isSome_iff_exists.mp hhash.2
    have hdvd : PIECE ∣ w.ownFrom := ok.base.ownFrom s hs ▸ dvd_alignUp s PIECE
    have hspec := ownHash_spec (x := x) ok.base.pos hdvd hstands hh
    obtain ⟨crc, row, hashed, heq⟩ := ownHash_eq w (w.pos + w.buf.length) x
    rw [heq] at hspec ⊢
    exact hown _ ⟨ok.base.bytes, ok.base.written, ok.base.piece, ok.base.helper, ok.base.ownFrom⟩
      ok.sect hx ⟨fun _ => hspec.2.hashed, fun _ _ => hspec⟩
  · simp only [if_neg hhash]
    exact hown w ok.base ok.sect hx
      ⟨fun hs => (ok.own.row hs).append x, fun hs hon => absurd ⟨hon, hs⟩ hhash⟩

/-- The writer does not hash, and its row stands. -/
structure Idle (w w' : AlignedWriter) : Prop where
  off : w'.ownOn = false
  keySection : w'.keySection = w.keySection
  ownFrom : w'.ownFrom = w.ownFrom
  row : w'.ownRow = w.ownRow ∧ w'.ownAt = w.ownAt ∧ w'.ownCrc = w.ownCrc

/-- A turn where it does not. -/
lemma push_idle {x : Bytes} (b : w.Base out) {w0 : AlignedWriter} (hoff : Idle w0 w)
    (hx : w.buf.length + x.length ≤ w.toBoundary) :
    (w.push sched x).Base (out ++ x) ∧ (w.push sched x).Room ∧ Idle w0 (w.push sched x) := by
  have hhash : ¬(w.ownOn = true ∧ w.keySection.isSome = true) := fun h => by
    rw [hoff.off] at h
    exact absurd h.1 Bool.false_ne_true
  rw [push]
  simp only [if_neg hhash]
  obtain ⟨hb, hroom, hk⟩ :=
    fill_spec sched b hx (fun hon => absurd hon (by rw [hoff.off]; exact Bool.false_ne_true))
  refine ⟨hb, hroom, ?_, hk.keySection.trans hoff.keySection, hk.ownFrom.trans hoff.ownFrom, ?_⟩
  · rw [← Bool.not_eq_true]
    intro hon
    exact absurd (hk.live hon).1 (by rw [hoff.off]; exact Bool.false_ne_true)
  · obtain ⟨h1, h2, h3⟩ := hk.off hoff.off
    obtain ⟨e1, e2, e3⟩ := hoff.row
    exact ⟨h1.trans e1, h2.trans e2, h3.trans e3⟩

/-! ## Calls -/

variable {p : Option ℕ}

/-- **Turn by turn**: what every turn keeps, a write of any length keeps. -/
lemma write_induction {P : AlignedWriter → Bytes → Prop} (hroom : ∀ w out, P w out → w.Room)
    (hpush : ∀ w out x, P w out → w.buf.length + x.length ≤ w.toBoundary →
    P (w.push sched x) (out ++ x)) (n : ℕ) :
    ∀ (rest : Bytes) (w : AlignedWriter) (out : Bytes), rest.length = n → P w out →
    P (w.write sched rest) (out ++ rest) := by
  induction n using Nat.strong_induction_on with
  | _ n ih =>
      intro rest w out hn h
      have hr : w.buf.length < w.toBoundary := hroom w out h
      rw [write]
      by_cases htake : 0 < min (w.toBoundary - w.buf.length) rest.length
      · rw [if_pos htake]
        have hlen : (rest.take (min (w.toBoundary - w.buf.length) rest.length)).length
            = min (w.toBoundary - w.buf.length) rest.length := by
          rw [List.length_take]
          omega
        have hnext := ih _ (by rw [List.length_drop]; omega) (rest.drop (min (w.toBoundary - w.buf.length) rest.length))
          _ _ rfl (hpush w out _ h (by rw [hlen]; omega))
        rw [List.append_assoc, List.take_append_drop] at hnext
        exact hnext
      · rw [if_neg htake]
        have hnil : rest = [] := List.eq_nil_of_length_eq_zero (by omega)
        rw [hnil, List.append_nil]
        exact h

/-- `write` keeps the writer well. -/
lemma Ok.write (ok : w.Ok p out) (data : Bytes) : (w.write sched data).Ok p (out ++ data) :=
  write_induction sched (P := fun w out => w.Ok p out) (fun _ _ h => h.room)
    (fun _ _ _ h hx => h.push sched hx) _ data w out
    rfl ok

/-- The pass of `write_hashed` over its data: its CRC, and the row taken to its end where the writer
hashes. -/
lemma Ok.hashFrom (ok : w.Ok p out) (data : Bytes) :
    let s := AlignedWriter.hashFrom (w.ownOn && w.keySection.isSome) data out.length
      (out.length + data.length) out.length ⟨0, w.ownAt, w.ownCrc, w.ownRow⟩
    s.whole = crc32 data ∧ (w.keySection.isSome → Hashed (out ++ data) w.ownFrom s.ownRow) ∧
      (w.keySection.isSome → w.ownOn = true → s.ownAt = max w.ownFrom (out ++ data).length ∧
        Hashing (out ++ data) w.ownFrom s.ownAt s.ownCrc s.ownRow) := by
  intro s
  have hwhole : (0 : BitVec 32) = crc32 (slice (out ++ data) out.length out.length) := by
    rw [slice_self, crc32_nil]
  by_cases hhash : w.ownOn = true ∧ w.keySection.isSome = true
  · obtain ⟨p, hp⟩ := Option.isSome_iff_exists.mp hhash.2
    have hdvd : PIECE ∣ w.ownFrom := ok.base.ownFrom p hp ▸ dvd_alignUp p PIECE
    have hown : (w.ownOn && w.keySection.isSome) = true := by rw [hhash.1, hhash.2, Bool.and_self]
    obtain ⟨hstands, hh⟩ := ok.own.live hhash.2 hhash.1
    obtain ⟨h1, h2, -⟩ := @hashFrom_spec _ _ _ (w.ownOn && w.keySection.isSome) hdvd (out.length + data.length) rfl
        _ _ ⟨0, w.ownAt, w.ownCrc, w.ownRow⟩ rfl le_rfl (Nat.le_add_right _ _) hwhole
        (fun _ => ⟨by rw [hstands], hh.append data⟩)
    obtain ⟨h3, h4⟩ := h2 hown
    exact ⟨h1, fun _ => h4.hashed, fun _ _ => ⟨h3.trans (by rw [List.length_append]), h4⟩⟩
  · have hown : (w.ownOn && w.keySection.isSome) = false := by
      rw [← Bool.not_eq_true, Bool.and_eq_true]
      exact hhash
    obtain ⟨h1, -, h3⟩ := @hashFrom_spec _ _ _ (w.ownOn && w.keySection.isSome) (dvd_zero PIECE)
        (out.length + data.length) rfl _ _ ⟨0, w.ownAt, w.ownCrc, w.ownRow⟩ rfl le_rfl
        (Nat.le_add_right _ _) hwhole (fun h => absurd h (by rw [hown]; exact Bool.false_ne_true))
    obtain ⟨-, -, hrow⟩ := h3 hown
    refine ⟨h1, fun hs => ?_, fun hs hon => absurd ⟨hon, hs⟩ hhash⟩
    have hr : s.ownRow = w.ownRow := hrow
    rw [hr]
    exact (ok.own.row hs).append data

/-- **`write_hashed`** keeps the writer well, and answers the data's CRC. -/
lemma Ok.writeHashed (ok : w.Ok p out) (data : Bytes) :
    (w.writeHashed sched data).1.Ok p (out ++ data) ∧
    (w.writeHashed sched data).2 = crc32 data := by
  obtain ⟨hwhole, hrow, hlive⟩ := ok.hashFrom data
  rw [AlignedWriter.writeHashed]
  simp only [ok.base.pos]
  set s := AlignedWriter.hashFrom (w.ownOn && w.keySection.isSome) data out.length
    (out.length + data.length) out.length ⟨0, w.ownAt, w.ownCrc, w.ownRow⟩
  set w1 : AlignedWriter :=
    { w with ownAt := s.ownAt, ownCrc := s.ownCrc, ownRow := s.ownRow, ownOn := false } with hw1
  have hb1 : w1.Base out :=
    ⟨ok.base.bytes, ok.base.written, ok.base.piece, ok.base.helper, ok.base.ownFrom⟩
  obtain ⟨hb, hr, hi⟩ :=
    write_induction sched (P := fun w' out' => w'.Base out' ∧ w'.Room ∧ Idle w1 w')
    (fun _ _ h => h.2.1)
    (fun _ _ _ h hx => push_idle sched h.1 h.2.2 hx) _ data w1 out rfl ⟨hb1, ok.room, rfl, rfl, rfl,
    rfl, rfl, rfl⟩
  refine ⟨⟨⟨hb.bytes, hb.written, hb.piece, hb.helper, hb.ownFrom⟩, hr,
    ⟨fun hs => ?_, fun hs hon => ?_⟩, ?_⟩, hwhole⟩
  · dsimp only at hs ⊢
    rw [hi.keySection] at hs
    rw [hi.ownFrom, hi.row.1]
    exact hrow hs
  · dsimp only at hs hon ⊢
    rw [hi.keySection] at hs
    rw [hi.ownFrom, hi.row.1, hi.row.2.1, hi.row.2.2]
    exact hlive hs hon
  · exact hi.keySection.trans ok.sect

/-- `flush` keeps the writer well, and leaves nothing in the buffer. -/
lemma Ok.flush (ok : w.Ok p out) : (w.flush sched).Ok p out ∧ (w.flush sched).buf = [] := by
  rw [AlignedWriter.flush]
  by_cases hbuf : w.buf = []
  · rw [if_neg (not_not_intro hbuf)]
    exact ⟨ok, hbuf⟩
  · rw [if_pos hbuf]
    obtain ⟨hb, hnil, hk⟩ := writeBuf_spec sched ok.base (fun _ => ok.own.row)
    refine ⟨⟨hb, ?_, ok.own.kept hk, hk.keySection.trans ok.sect⟩, hnil⟩
    rw [Room, hnil]
    exact toBoundary_pos hb

/-- **Calls keep the writer well**: the file and the buffer are what was written. -/
lemma Ok.calls (ok : w.Ok p out) (ops : List WriteOp) :
    (w.calls sched ops).Ok p (out ++ ops.flatMap WriteOp.bytes) := by
  rw [AlignedWriter.calls]
  induction ops generalizing w out with
  | nil =>
      rw [List.flatMap_nil, List.append_nil]
      exact ok
  | cons op ops ih =>
      rw [List.foldl_cons, List.flatMap_cons, ← List.append_assoc]
      apply ih
      cases op with
      | write data => exact ok.write sched data
      | writeHashed data => exact (ok.writeHashed sched data).1
      | flush =>
          rw [WriteOp.bytes, List.append_nil]
          exact (ok.flush sched).1

/-! ## How far the file goes -/

lemma landed_written (w : AlignedWriter) : (w.landed sched).written = w.written := by
  rw [AlignedWriter.landed]
  cases w.helper with
  | some h => rfl
  | none =>
      dsimp only
      split_ifs
      · rfl
      · have hspawn : Landed w (w.spawnHelper sched) := spawnHelper_landed sched
        exact hspawn.written

lemma writeBuf_written (w : AlignedWriter) :
    (w.writeBuf sched).written = w.written + w.buf.length := by
  rw [writeBuf]
  dsimp only
  split_ifs
  all_goals first
    | rfl
    | exact landed_written sched _

lemma landed_piece (w : AlignedWriter) : (w.landed sched).piece = w.piece := by
  rw [AlignedWriter.landed]
  cases w.helper with
  | some h => rfl
  | none =>
      dsimp only
      split_ifs
      · rfl
      · have hspawn : Landed w (w.spawnHelper sched) := spawnHelper_landed sched
        exact hspawn.piece

lemma writeBuf_piece (w : AlignedWriter) : (w.writeBuf sched).piece = w.piece := by
  rw [writeBuf]
  dsimp only
  split_ifs
  all_goals first
    | rfl
    | exact landed_piece sched _

/-- The file ends at a boundary of a piece, or where it ended at `first`. -/
structure AtPiece (n first : ℕ) (w : AlignedWriter) : Prop where
  piece : w.piece = n
  since : first ≤ w.written
  ends : w.written = first ∨ n ∣ w.written

variable {n first : ℕ}

/-- So it goes as far as the output's last boundary: what is buffered does not reach the next. -/
lemma AtPiece.written (h : AtPiece n first w) (b : w.Base out) (hroom : w.Room) :
    w.written = reach n first out.length := by
  obtain ⟨rfl, hsince, hends⟩ := h
  have hlen := b.pos
  have hmod := Nat.mod_lt w.written b.piece
  have hdm := Nat.div_add_mod w.written w.piece
  rw [Room, toBoundary, AlignedWriter.pos] at hroom
  rw [AlignedWriter.pos] at hlen
  have hdiv : out.length / w.piece = w.written / w.piece := by
    rw [← hlen]
    refine Nat.div_eq_of_lt_le ?_ ?_
    · rw [mul_comm]
      omega
    · rw [Nat.succ_mul, mul_comm]
      omega
  rw [reach, hdiv]
  rcases hends with hfirst | hdvd
  · have := Nat.div_mul_le_self w.written w.piece
    omega
  · rw [Nat.div_mul_cancel hdvd]
    omega

/-- A turn of a write keeps it so: the buffer is written where it reaches a boundary, and only
there. -/
lemma AtPiece.push (h : AtPiece n first w) (hpos : 0 < n) (x : Bytes) :
    AtPiece n first (w.push sched x) := by
  obtain ⟨rfl, hsince, hends⟩ := h
  have hfill : ∀ w1 : AlignedWriter, w1.piece = w.piece → w1.written = w.written →
      let w' := { w1 with buf := w1.buf ++ x }
      AtPiece w.piece first (if w'.buf.length = w'.toBoundary then w'.writeBuf sched else w') := by
    intro w1 hpiece hwritten w'
    by_cases hfull : w'.buf.length = w'.toBoundary
    · rw [if_pos hfull]
      have hend : (w'.writeBuf sched).written = w.written + (w.piece - w.written % w.piece) := by
        rw [writeBuf_written, hfull, toBoundary, AlignedWriter.pos]
        show w1.written + (w1.piece - w1.written % w1.piece) = _
        rw [hpiece, hwritten]
      have hmod := Nat.mod_lt w.written hpos
      have hdm := Nat.div_add_mod w.written w.piece
      refine ⟨(writeBuf_piece sched w').trans hpiece, by omega,
        Or.inr ⟨w.written / w.piece + 1, ?_⟩⟩
      rw [hend, Nat.mul_succ]
      omega
    · rw [if_neg hfull]
      exact ⟨hpiece, hsince.trans hwritten.ge, hwritten.symm ▸ hends⟩
  have hown : ∀ own : AlignedWriter,
      own = (if w.ownOn ∧ w.keySection.isSome then w.ownHash (w.pos + w.buf.length) x else w) →
        own.piece = w.piece ∧ own.written = w.written := by
    intro own h
    split_ifs at h
    · obtain ⟨crc, row, hashed, heq⟩ := ownHash_eq w (w.pos + w.buf.length) x
      rw [h, heq]
      exact ⟨rfl, rfl⟩
    · rw [h]
      exact ⟨rfl, rfl⟩
  obtain ⟨hpiece, hwritten⟩ := hown _ rfl
  exact hfill _ hpiece hwritten

lemma AtPiece.write (h : AtPiece n first w) (hpos : 0 < n) (data : Bytes) :
    AtPiece n first (w.write sched data) := by
  fun_induction AlignedWriter.write sched w data with
  | case1 w rest take htake ih => exact ih (h.push sched hpos _)
  | case2 w rest take htake => exact h

/-- A call keeps it so, but for a flush. -/
lemma AtPiece.call (h : AtPiece n first w) (hpos : 0 < n) {op : WriteOp} (hop : op ≠ .flush) :
    AtPiece n first (w.call sched op) := by
  cases op with
  | write data => exact h.write sched hpos data
  | writeHashed data =>
      rw [AlignedWriter.call, AlignedWriter.writeHashed]
      dsimp only
      set s := AlignedWriter.hashFrom (w.ownOn && w.keySection.isSome) data (w.pos + w.buf.length)
        (w.pos + w.buf.length + data.length) (w.pos + w.buf.length) ⟨0, w.ownAt, w.ownCrc, w.ownRow⟩
      have hpass : AtPiece n first
          { w with ownAt := s.ownAt, ownCrc := s.ownCrc, ownRow := s.ownRow, ownOn := false } :=
        ⟨h.piece, h.since, h.ends⟩
      obtain ⟨hpiece, hsince, hends⟩ := hpass.write sched hpos data
      exact ⟨hpiece, hsince, hends⟩
  | flush => exact absurd rfl hop

lemma AtPiece.calls (hpos : 0 < n) {ops : List WriteOp} (hops : WriteOp.flush ∉ ops)
    (h : AtPiece n first w) : AtPiece n first (w.calls sched ops) := by
  induction ops generalizing w with
  | nil => exact h
  | cons op ops ih =>
      obtain ⟨hop, hops⟩ := not_or.mp (List.mem_cons.not.mp hops)
      exact ih hops (h.call sched hpos (Ne.symm hop))

/-- **How far the file goes behind some calls**, none of them a flush: to the last boundary of a
piece. -/
lemma Ok.written_calls (ok : w.Ok p out) {ops : List WriteOp} (hops : WriteOp.flush ∉ ops) :
    (w.calls sched ops).written =
      reach w.piece w.written (out ++ ops.flatMap WriteOp.bytes).length := by
  have hcalls : AtPiece w.piece w.written (w.calls sched ops) :=
    AtPiece.calls sched ok.base.piece hops ⟨rfl, le_rfl, Or.inl rfl⟩
  have hok := ok.calls sched ops
  exact hcalls.written hok.base hok.room

/-! ## The section's ends -/

/-- A new writer. -/
lemma new_ok (piece ahead headLen : ℕ) (rowOnWrite helperHashes : Bool) :
    (AlignedWriter.new piece ahead headLen rowOnWrite helperHashes).Ok none [] := by
  have hpiece : 0 < max piece 4096 := by omega
  refine ⟨⟨rfl, rfl, hpiece, fun h hh => ?_, fun s hs => ?_⟩, ?_, ⟨fun hs => ?_, fun hs => ?_⟩, rfl⟩
  · exact absurd hh (by rw [AlignedWriter.new]; exact Option.some_ne_none h |>.symm)
  · exact absurd hs (Option.some_ne_none s).symm
  · have := Nat.mod_lt 0 hpiece
    simp only [Room, toBoundary, AlignedWriter.new, pos, List.length_nil]
    omega
  · exact absurd hs Bool.false_ne_true
  · exact absurd hs Bool.false_ne_true

/-- The section's start, where no helper is told of it. -/
lemma startSection_still (p : ℕ) (hw : w.helper = none ∨ w.helperHashes = false) :
    w.startSection sched p = { w with keySection := some p, ownFrom := alignUp p PIECE, ownAt := alignUp p PIECE,
                                      ownCrc := 0, ownRow := [] } := by
  rw [AlignedWriter.startSection]
  dsimp only
  split
  · rfl
  · rename_i h hh
    rw [hh] at hw
    rcases hw with hn | hoff
    · exact absurd hn (Option.some_ne_none h)
    · rw [if_neg (by rw [hoff]; exact Bool.false_ne_true)]

/-- The section's start, where one is. -/
lemma startSection_told (p : ℕ) {h : Helper} (hh : w.helper = some h)
    (hhash : w.helperHashes = true) :
    w.startSection sched p = { (((({ w with keySection := some p, ownFrom := alignUp p PIECE, ownAt := alignUp p PIECE,
                                            ownCrc := 0, ownRow := [] } : AlignedWriter).withHelper
        (fun h => h.setHashedTo (alignUp p PIECE))).pause sched).withHelper
          (fun h => { h with hashFrom := some (alignUp p PIECE) })).pause sched with ownOn := false } := by
  rw [AlignedWriter.startSection]
  dsimp only
  split
  · rename_i hn
    rw [hn] at hh
    exact absurd hh.symm (Option.some_ne_none h)
  · rw [if_pos hhash]

/-- **`start_section`** at the output's end: a helper that runs hashes from the section's first
boundary, and so does the writer where none does. -/
lemma Ok.startSection (ok : w.Ok none out) :
    (w.startSection sched out.length).Ok (some out.length) out := by
  have hidle : ∀ h, w.helper = some h → h.hashFrom = none := fun h hh => by
    cases hf : h.hashFrom with
    | none => rfl
    | some f =>
        obtain ⟨hs, -⟩ := (ok.base.helper h hh).hashes f hf
        rw [firstPiece, ok.sect] at hs
        exact absurd hs (Option.some_ne_none f).symm
  have hfirst : out.length ≤ alignUp out.length PIECE := le_alignUp _ (by decide)
  have hfrom : ∀ s, some out.length = some s → alignUp out.length PIECE = alignUp s PIECE :=
    fun s hs => by
    rw [Option.some.injEq] at hs
    rw [hs]
  have hstart : Hashing out (alignUp out.length PIECE) (alignUp out.length PIECE) 0 [] :=
    hashing_start out _
  have hstill : ({ w with keySection := some out.length, ownFrom := alignUp out.length PIECE,
                          ownAt := alignUp out.length PIECE, ownCrc := 0, ownRow := [] } :
                          AlignedWriter).Ok (some out.length) out :=
    ⟨⟨ok.base.bytes, ok.base.written, ok.base.piece,
      fun h hh => (ok.base.helper h hh).restart (hidle h hh), hfrom⟩,
      ok.room, ⟨fun _ => hstart.hashed, fun _ _ => ⟨(max_eq_left hfirst).symm, hstart⟩⟩, rfl⟩
  by_cases hw : w.helper = none ∨ w.helperHashes = false
  · rw [startSection_still sched _ hw]
    exact hstill
  · obtain ⟨hsome, hhash⟩ := not_or.mp hw
    obtain ⟨h, hh⟩ := Option.ne_none_iff_exists'.mp hsome
    have hok := ok.base.helper h hh
    rw [firstPiece, ok.sect] at hok
    have hnone := hidle h hh
    obtain ⟨hrow, hq⟩ := hok.idle hnone
    have hto : (h.setHashedTo (alignUp out.length PIECE)).Ok w.file none :=
      ⟨hok.landed, hok.within, hok.idle, fun f hf => absurd (hnone.symm.trans hf) (Option.some_ne_none f).symm⟩
    obtain ⟨pc, hpc, hsteps⟩ :=
      Helper.idle_steps w.file (h := h.setHashedTo (alignUp out.length PIECE)) hnone
      (sched w.clock) hq
    have hsteps' := hto.steps (sched w.clock)
    rw [hsteps] at hsteps'
    have hbegin := hsteps'.begin hpc hrow rfl
    rw [startSection_told sched _ hh (Bool.not_eq_false _ ▸ hhash)]
    have hl := ((told_landed (w := { w with keySection := some out.length, ownFrom := alignUp out.length PIECE,
                                            ownAt := alignUp out.length PIECE, ownCrc := 0, ownRow := [] }) sched
      (fun h => h.setHashedTo (alignUp out.length PIECE))).trans
      (told_landed sched (fun h => { h with hashFrom := some (alignUp out.length PIECE) }))).trans hushed_landed
    refine ⟨hstill.base.landed hl (fun h' hh' => ?_), hl.room hstill.room,
      hstill.own.kept hl.toKept, hl.keySection⟩
    simp only [withHelper, pause, hh, Option.map_some, Option.some.injEq, hsteps] at hh'
    subst hh'
    exact hbegin.steps _

/-- A row in hand: the CRCs of the output's pieces from the section's first boundary, and a run of
them hashed. -/
structure RowOf (out : Bytes) (p : ℕ) (r : HelperRow) : Prop where
  start : r.start = alignUp p PIECE
  hashed : Hashed out r.start r.crcs
  run : ∃ k, r.stop = r.start + k * PIECE ∧ k ≤ r.crcs.length

/-- The section's end: the helper told, and told to stop. -/
lemma Ok.endSection {p : ℕ} (ok : w.Ok (some p) out) (stop : ℕ) :
    (w.endSection sched stop).Ok (some p) out := by
  have hb : ({ w with ownOn := false } : AlignedWriter).Base out :=
    ⟨ok.base.bytes, ok.base.written, ok.base.piece, ok.base.helper, ok.base.ownFrom⟩
  have hl : Landed w (w.endSection sched stop) :=
    (hushed_landed.trans (told_landed sched _)).trans (told_landed sched _)
  refine ⟨?_, hl.room ok.room, ok.own.kept hl.toKept, hl.keySection.trans ok.sect⟩
  rw [AlignedWriter.endSection]
  refine Base.told sched (Base.told sched hb ?_) ?_
  · exact fun _ h => ⟨h.landed, h.within, h.idle, h.hashes⟩
  · exact fun _ h => ⟨h.landed, h.within, h.idle, h.hashes⟩

/-- The writer's own row, taken. -/
lemma Ok.ownRowSoFar {p : ℕ} (ok : w.Ok (some p) out) :
    ∃ r, w.ownRowSoFar = (some r, { w with ownRow := [] }) ∧ RowOf out p r := by
  refine ⟨⟨w.ownFrom, w.ownFrom + w.ownRow.length * PIECE, w.ownRow⟩, ?_, ok.base.ownFrom p ok.sect,
    ok.own.row (by rw [ok.sect]; rfl), w.ownRow.length, rfl, le_rfl⟩
  rw [AlignedWriter.ownRowSoFar, ok.sect]

/-- **The join**: the helper's row, or the writer's own, is of the output's pieces, wherever the
helper stands. -/
lemma Ok.joinHelper {p : ℕ} (ok : w.Ok (some p) out) (hoff : w.ownOn = false) :
    ∃ r, (w.joinHelper sched).1 = some r ∧ RowOf out p r ∧
    (w.joinHelper sched).2.Ok (some p) out := by
  have hown : ∀ w1 : AlignedWriter, w1.Ok (some p) out → w1.ownOn = false →
      ∃ r, w1.ownRowSoFar.1 = some r ∧ RowOf out p r ∧ w1.ownRowSoFar.2.Ok (some p) out := by
    intro w1 ok1 hoff1
    obtain ⟨r, hr, hrow⟩ := ok1.ownRowSoFar
    rw [hr]
    refine ⟨r, rfl, hrow,
      ⟨ok1.base.bytes, ok1.base.written, ok1.base.piece, ok1.base.helper, ok1.base.ownFrom⟩,
      ok1.room, ⟨fun _ => hashed_nil _ _, fun _ hon => ?_⟩, ok1.sect⟩
    exact absurd (hoff1.symm.trans hon) Bool.false_ne_true
  have hdone : ({ w with helperDone := true } : AlignedWriter).Ok (some p) out :=
    ⟨⟨ok.base.bytes, ok.base.written, ok.base.piece, ok.base.helper, ok.base.ownFrom⟩, ok.room,
      ⟨ok.own.row, ok.own.live⟩, ok.sect⟩
  rw [AlignedWriter.joinHelper]
  dsimp only
  split
  · exact hown _ hdone hoff
  · have hstop : ((({ w with helperDone := true } : AlignedWriter).withHelper (fun h => { h with stop := true })).pause
        sched).Base out :=
      Base.told sched hdone.base (f := fun h => { h with stop := true })
        (fun _ h => ⟨h.landed, h.within, h.idle, h.hashes⟩)
    set w1 :=
      (({ w with helperDone := true } : AlignedWriter).withHelper
      (fun h => { h with stop := true })).pause sched with hw1
    have hjoined : ({ w1 with helper := none } : AlignedWriter).Ok (some p) out :=
      ⟨⟨hstop.bytes, hstop.written, hstop.piece, fun h hh => absurd hh (Option.some_ne_none h).symm,
        hstop.ownFrom⟩, ok.room, ⟨ok.own.row, ok.own.live⟩, ok.sect⟩
    split
    · rename_i row hrow
      obtain ⟨h, hh, hfin⟩ := Option.bind_eq_some_iff.mp hrow
      obtain ⟨hs, hcrcs, hrun⟩ := (hstop.helper h hh).finished hfin
      refine ⟨row, rfl, ⟨?_, ?_, hrun⟩, hjoined⟩
      · have hp : w1.firstPiece = some (alignUp p PIECE) := congrArg (Option.map (fun s => alignUp s PIECE)) ok.sect
        rw [hp, Option.some.injEq] at hs
        exact hs.symm
      · rw [← hstop.bytes]
        exact hcrcs.append _
    · exact hown _ hjoined hoff

/-! ## The row -/

lemma readPart_eq {l : Bytes} {off n : ℕ} (h : 0 < n → off + n ≤ l.length) :
    readPart l off n = some (slice l off (off + n)) := by
  rw [readPart]
  by_cases hn : 0 < n
  · rw [if_pos hn, getRange, if_pos ⟨Nat.le_add_right off n, h hn⟩]
  · have hz : n = 0 := by omega
    rw [if_neg hn, hz, Nat.add_zero, slice_self]

/-- What the file and the buffer hold is what was written. -/
lemma Base.readSection (b : w.Base out) {off n : ℕ} (h : off + n ≤ out.length) :
    w.readSection off n = some (slice out off (off + n)) := by
  have hlen : w.file.length + w.buf.length = out.length := by rw [← b.bytes, List.length_append]
  rw [AlignedWriter.readSection, b.written, readPart_eq (by omega), some_bind_eq,
    readPart_eq (by omega), some_bind_eq]
  by_cases hfile : off < w.file.length
  · have hx : slice w.file off (off + min (w.file.length - off) n)
      = slice out off (off + min (w.file.length - off) n) := by
      rw [← b.bytes, slice_append_left (by omega)]
    have hy : slice w.buf (off + min (w.file.length - off) n - w.file.length)
        (off + min (w.file.length - off) n - w.file.length + (n - min (w.file.length - off) n))
        = slice out (off + min (w.file.length - off) n) (off + n) := by
      by_cases hmore : min (w.file.length - off) n < n
      · rw [← b.bytes, slice_append_of_le (by omega) (by omega)]
        congr 1
        omega
      · have hz : min (w.file.length - off) n = n := by omega
        rw [hz, Nat.sub_self, Nat.add_zero, slice_self, slice_self]
    rw [hx, hy, slice_append_slice _ (Nat.le_add_right _ _) (by omega)]
  · have hmin : min (w.file.length - off) n = 0 := by omega
    have hend : off - w.file.length + n = off + n - w.file.length := by omega
    rw [hmin, Nat.add_zero, slice_self, List.nil_append, Nat.sub_zero, hend,
      ← slice_append_of_le (not_lt.mp hfile) (by omega), b.bytes]

/-- The section as it will be on the file: the header patched in over what was written for it. -/
def sectionOf (out header : Bytes) (keyOff : ℕ) : Bytes :=
  header ++ (out.drop keyOff).drop header.length

lemma length_sectionOf {header : Bytes} {keyOff total : ℕ} (hout : out.length = keyOff + total)
    (hheader : header.length ≤ total) : (sectionOf out header keyOff).length = total := by
  rw [sectionOf, List.length_append, List.length_drop, List.length_drop]
  omega

/-- Behind the header, the section is the output. -/
lemma slice_sectionOf {header : Bytes} {keyOff first stop : ℕ} (hfirst : header.length ≤ first)
    (hstop : header.length ≤ stop) :
    slice (sectionOf out header keyOff) first stop = slice out (keyOff + first)
    (keyOff + stop) := by
  rw [sectionOf, slice_append_of_le hfirst hstop, slice_eq_take_drop, slice_eq_take_drop,
    List.drop_drop, List.drop_drop]
  congr 1
  · omega
  · congr 1
    omega

/-- **A piece read back**: the header's bytes from the header, the rest from the output. -/
lemma Base.readBack (b : w.Base out) {header : Bytes} {keyOff total first stop : ℕ}
    (hout : out.length = keyOff + total) (hfirst : first < stop) (hstop : stop ≤ total) :
    w.readBack header keyOff first stop
    = some (crc32 (slice (sectionOf out header keyOff) first stop)) := by
  have hx : slice header first (first + min (header.length - first) (stop - first))
      = slice (sectionOf out header keyOff) first
      (first + min (header.length - first) (stop - first)) := by
    by_cases hpos : 0 < min (header.length - first) (stop - first)
    · rw [sectionOf, slice_append_left (by omega)]
    · have hz : min (header.length - first) (stop - first) = 0 := by omega
      rw [hz, Nat.add_zero, slice_self, slice_self]
  have hy : w.readBehind keyOff first stop (min (header.length - first) (stop - first))
      = some (slice (sectionOf out header keyOff) (first + min (header.length - first) (stop - first)) stop) := by
    rw [readBehind]
    by_cases hmore : min (header.length - first) (stop - first) < stop - first
    · rw [if_pos hmore, b.readSection (by omega), slice_sectionOf (by omega) (by omega)]
      congr 2
      omega
    · have hz : first + min (header.length - first) (stop - first) = stop := by omega
      rw [if_neg hmore, hz, slice_self]
  rw [AlignedWriter.readBack, readPart_eq (by omega), some_bind_eq, hy, some_bind_eq, hx,
    slice_append_slice _ (Nat.le_add_right _ _) (by omega)]

/-- **A piece found in the row** is the section's. -/
lemma RowOf.piece {header : Bytes} {keyOff total first stop : ℕ} {h : HelperRow}
    (hr : RowOf out keyOff h) (hout : out.length = keyOff + total)
    (hstop : stop = pieceStop total PIECE_SHIFT keyOff first) (hlt : first < stop)
    {crc : Option (BitVec 32)}
    (hc : hashedPiece (some h) header.length keyOff first stop = some crc) :
    crc = some (crc32 (slice (sectionOf out header keyOff) first stop)) := by
  rw [hashedPiece] at hc
  by_cases hin : header.length ≤ first ∧ h.start ≤ keyOff + first ∧
      keyOff + first + (stop - first) ≤ h.stop ∧ PIECE ∣ keyOff + first - h.start
  · rw [if_pos hin, Option.some.injEq] at hc
    obtain ⟨hhead, hlo, hhi, i, hi⟩ := hin
    obtain ⟨k, hk, hkrow⟩ := hr.run
    have hpos : 0 < PIECE := by decide
    have hfile : keyOff + first = h.start + i * PIECE := by
      rw [Nat.mul_comm]
      omega
    have hik : i < k := by
      refine lt_of_mul_lt_mul_right (a := PIECE) ?_ (Nat.zero_le _)
      omega
    obtain ⟨hle, hcrc⟩ := hr.hashed i (by omega)
    have hnext : h.start + (i + 1) * PIECE = keyOff + first + PIECE := by
      rw [hfile, Nat.succ_mul]
      omega
    have hend : keyOff + stop = keyOff + first + PIECE := by
      have hdvd : PIECE ∣ keyOff + first := by
        rw [hfile, hr.start]
        exact Dvd.dvd.add (dvd_alignUp _ _) (dvd_mul_left _ _)
      rw [hstop, pieceStop]
      have hshift : 2 ^ PIECE_SHIFT = PIECE := rfl
      rw [hshift]
      split_ifs with hz
      · rw [hz, Nat.add_zero] at hdvd
        rw [Nat.mod_eq_zero_of_dvd hdvd]
        omega
      · omega
    rw [← hc, hi, Nat.mul_div_cancel_left i hpos, hcrc, slice_sectionOf hhead (by omega),
      hend, ← hfile, hnext]
  · rw [if_neg hin] at hc
    exact absurd hc (Option.some_ne_none crc).symm

/-- Steps that each succeed succeed together. -/
lemma mapM_eq_some_map {α β : Type} {f : α → Option β} {g : α → β} {l : List α}
    (h : ∀ x ∈ l, f x = some (g x)) : l.mapM f = some (l.map g) := by
  induction l with
  | nil => rfl
  | cons x l ih =>
      rw [List.mapM_cons, h x List.mem_cons_self, ih (fun y hy => h y (List.mem_cons_of_mem x hy))]
      rfl

/-- **`row_for`** gives the section's row, whatever of it the row in hand has. -/
lemma Base.rowFor (b : w.Base out) {header : Bytes} {keyOff total : ℕ} {h : HelperRow}
    (hr : RowOf out keyOff h) (hout : out.length = keyOff + total)
    (hheader : header.length ≤ total) :
    w.rowFor header keyOff total (some h)
    = some (checksumRow (sectionOf out header keyOff) PIECE_SHIFT keyOff) := by
  rw [AlignedWriter.rowFor,
    mapM_eq_some_map (g := fun r => crc32 (slice (sectionOf out header keyOff) r.1 r.2)),
    some_bind_eq, checksumRow, length_sectionOf hout hheader, List.flatMap_map]
  intro r hmem
  obtain ⟨hfirst, hstop⟩ := mem_piecesFrom _ rfl hmem
  have hlt : r.1 < r.2 := hstop ▸ lt_pieceStop hfirst
  have hle : r.2 ≤ total := by
    rw [hstop, pieceStop]
    split_ifs
    · exact min_le_right _ _
    · exact min_le_right _ _
  split
  · rename_i crc hcrc
    exact hr.piece hout hstop hlt hcrc
  · exact b.readBack hout hlt hle

end AlignedWriter

/-- **The row does not depend on how the bytes arrived.**  Whatever was written before the key
section and of it, in whatever calls, wherever a helper takes over the hashing and wherever it
stands when it is joined, the row of the section is the checksum row of its bytes with the header
patched in, and the file is the writes one after the other. -/
theorem row_assembly (sched : Schedule) (piece ahead headLen : ℕ) (rowOnWrite helperHashes : Bool)
    (before sect : List WriteOp)
    (header : Bytes) (hheader : header.length ≤ (sect.flatMap WriteOp.bytes).length) :
    let head := before.flatMap WriteOp.bytes
    let body := sect.flatMap WriteOp.bytes
    let w := (AlignedWriter.new piece ahead headLen rowOnWrite helperHashes).calls sched before
    let w := (w.startSection sched head.length).calls sched sect
    let joined := (w.endSection sched (head.length + body.length)).joinHelper sched
    joined.2.rowFor header head.length body.length joined.1
        = some (checksumRow (header ++ body.drop header.length) PIECE_SHIFT head.length) ∧
      joined.2.file ++ joined.2.buf = head ++ body ∧ (joined.2.flush sched).file = head ++ body := by
  intro head body w0 w1 joined
  have h0 : w0.Ok none head := by
    have := (AlignedWriter.new_ok piece ahead headLen rowOnWrite helperHashes).calls sched before
    rwa [List.nil_append] at this
  have h1 : w1.Ok (some head.length) (head ++ body) := (h0.startSection sched).calls sched sect
  have h2 := h1.endSection sched (head.length + body.length)
  obtain ⟨r, hrow, hr, hok⟩ := h2.joinHelper sched rfl
  change joined.1 = some r at hrow
  change joined.2.Ok (some head.length) (head ++ body) at hok
  have hsec : AlignedWriter.sectionOf (head ++ body) header head.length
    = header ++ body.drop header.length := by
    rw [AlignedWriter.sectionOf, List.drop_left]
  obtain ⟨hflush, hnil⟩ := hok.flush sched
  refine ⟨?_, hok.base.bytes, ?_⟩
  · rw [hrow, ← hsec]
    exact hok.base.rowFor hr List.length_append hheader
  · have hbytes := hflush.base.bytes
    rwa [hnil, List.append_nil] at hbytes

/-- A section of two whole pieces and a byte. -/
def twoPieces : List WriteOp := [.write [0], .writeHashed (List.replicate (2 * 2 ^ PIECE_SHIFT) 3)]

/-- That section behind one byte, a helper running ahead of it. -/
theorem row_assembly_twoPieces :
    let sched : Schedule := fun _ => [true, false, true]
    let body := twoPieces.flatMap WriteOp.bytes
    let w := (AlignedWriter.new 4096 1 0 true true).calls sched [.write [7], .flush]
    let w := (w.startSection sched 1).calls sched twoPieces
    let joined := (w.endSection sched (1 + body.length)).joinHelper sched
    body.length = 1 + 2 * 2 ^ PIECE_SHIFT ∧
      joined.2.rowFor [9] 1 body.length joined.1
      = some (checksumRow ([9] ++ body.drop 1) PIECE_SHIFT 1) ∧
      joined.2.file ++ joined.2.buf = [7] ++ body ∧ (joined.2.flush sched).file = [7] ++ body := by
  have hlen : (twoPieces.flatMap WriteOp.bytes).length = 1 + 2 * 2 ^ PIECE_SHIFT := by
    simp only [twoPieces, WriteOp.bytes, List.flatMap_cons, List.flatMap_nil, List.length_append,
      List.length_replicate, List.length_singleton, List.length_nil, Nat.add_zero]
  have hheader : ([9] : Bytes).length ≤ (twoPieces.flatMap WriteOp.bytes).length := by
    rw [hlen]
    exact Nat.le_add_right _ _
  generalize twoPieces = sect at hlen hheader ⊢
  exact ⟨hlen, row_assembly (fun _ => [true, false, true]) 4096 1 0 true true [.write [7], .flush]
    sect [9] hheader⟩

end Supdb

import Supdb.Lz4Block

/-!
# The fast LZ4 decoder

The fast loop decodes the same blocks in moves of fixed widths, which read past a run's end and
write past a match's: a turn begins where there is room for that, and where a turn lacks its room
the careful decoder goes on.

* `fastTurn`, `fastLoop`, `decompressIn` – the code, with every move checked against its buffers.
* `TurnSays` – what one turn says of the block: it is none, it ends, or what it says from here is
  what it says from where the turn stops.
* **`fastTurn_agree`** – every turn begun with its room says so, and no index it forms is outside
  its buffer.
* **`decompressIn_agrees`** – the fast decoder and the careful one answer alike on every input,
  whatever follows the block.

What carries the proof is that the output written so far is a prefix of the buffer, and that a wide
move leaves more of the reference there than was asked for.
-/

namespace Supdb

open StorageLib Decoded

/-! ## The code -/

/-- The input a turn may read from its token. -/
def FAST_IN : ℕ := 18

/-- The output a turn may write past where it starts. -/
def FAST_OUT : ℕ := 64

/-- The readable bytes past a block's end that let the fast loop run with no input bound. -/
def PAD_IN : ℕ := 64

/-- The least multiple of a period under eight of eight or more, by the period. -/
def STEP : List ℕ := [8, 8, 8, 9, 8, 10, 12, 14]

/-- A move of `n` to `d` from `step` back. -/
def moveBack (dst : Bytes) (d step n : ℕ) : Option Bytes :=
  if step ≤ d then copyNonoverlapping dst (d - step) d n else none

/-- `near_copy`: a match from fewer than eight bytes back. -/
def nearCopy (dst : Bytes) (m op ml offset : ℕ) : Decoded Bytes := do
  let dst ← orFault (stride 1 (fun k dst => copyNonoverlapping dst (m + k) (op + k) 1) 0 8 dst)
  let step ← orFault STEP[offset % 8]?
  if 8 < ml then orFault (stride 8 (fun k dst => moveBack dst (op + k) step 8) 8 ml dst)
    else .ok dst

/-- `wild_copy` of moves of thirty-two. -/
def wildCopy (src dst : Bytes) (s d n : ℕ) : Decoded Bytes :=
  orFault (stride 32 (fun k dst => copyFrom src dst (s + k) (d + k) 32) 0 n dst)

/-- A match of under nineteen bytes. -/
def shortMatch (dst : Bytes) (m op ml offset : ℕ) : Decoded Bytes :=
  if 8 ≤ offset then do
    let dst ← orFault (copyNonoverlapping dst m op 8)
    let dst ← orFault (copyNonoverlapping dst (m + 8) (op + 8) 8)
    orFault (copyNonoverlapping dst (m + 16) (op + 16) 2)
  else nearCopy dst m op ml offset

/-- A longer match, inside the turn's room. -/
def longMatch (dst : Bytes) (m op ml offset : ℕ) : Decoded Bytes :=
  if 16 ≤ offset then do
    let dst ← orFault (copyNonoverlapping dst m op 16)
    let dst ← orFault (copyNonoverlapping dst (m + 16) (op + 16) 16)
    if 32 < ml then orFault (stride 16 (fun k dst => copyNonoverlapping dst (m + k) (op + k) 16) 32 ml dst)
    else .ok dst
  else if 8 ≤ offset then
    orFault (stride 16 (fun k dst => do
      let dst ← copyNonoverlapping dst (m + k) (op + k) 8
      copyNonoverlapping dst (m + k + 8) (op + k + 8) 8) 0 ml dst)
  else nearCopy dst m op ml offset

/-- What a turn comes to: the block ended, the next turn, or the careful decoder from here. -/
inductive Turn where
  | done (op : ℕ) (dst : Bytes)
  | next (c : Cursor)
  | left (c : Cursor)
  deriving Repr, DecidableEq

/-- Whether the moves of a long run could read past the readable bytes; a padded block never asks.
-/
def lacksInput (padded : Bool) (src : Bytes) (ip lit : ℕ) : Decoded Bool :=
  if padded then .ok false
  else do
    let rest ← sub src.length ip
    if rest < 64 then .ok true
    else do
      let past ← sub rest lit
      .ok (decide (past < 32))

/-- The moves of a long run. -/
def longRun (src dst : Bytes) (ip op lit : ℕ) : Decoded Bytes :=
  if lit ≤ 64 then do
    let dst ← orFault (copyFrom src dst ip op 16)
    let dst ← orFault (copyFrom src dst (ip + 16) (op + 16) 16)
    let dst ← orFault (copyFrom src dst (ip + 32) (op + 32) 16)
    orFault (copyFrom src dst (ip + 48) (op + 48) 16)
  else wildCopy src dst ip op lit

/-- A turn's run, from behind its token; `none` where the run lacks its room. -/
def fastLiterals (padded : Bool) (src : Bytes) (len olim : ℕ) (token : UInt8) (c : Cursor) :
    Decoded (Option Cursor) := do
  let lit := token.toNat / 16
  if lit < 15 then do
    let dst ← orFault (copyFrom src c.dst c.ip c.op 16)
    .ok (some ⟨c.ip + lit, c.op + lit, dst⟩)
  else do
    let (n, ip) ← orErr (varLen (src.take len) c.ip)
    let lit := lit + n
    let left ← sub len ip
    if left < lit then .err
    else do
      let room ← sub olim c.op
      if room < lit then .ok none
      else do
        let lacks ← lacksInput padded src ip lit
        if lacks then .ok none
        else do
          let dst ← longRun src c.dst ip c.op lit
          .ok (some ⟨ip + lit, c.op + lit, dst⟩)

/-- A turn's match, from behind its run. -/
def fastMatch (src : Bytes) (len : ℕ) (token : UInt8) (c : Cursor) : Decoded Turn := do
  let offset ← orFault (readWord 2 src c.ip)
  if offset = 0 ∨ c.op < offset then .err
  else do
    let m ← sub c.op offset
    let n := token.toNat % 16
    if n < 15 then do
      let ml := n + MINMATCH
      let dst ← shortMatch c.dst m c.op ml offset
      .ok (.next ⟨c.ip + 2, c.op + ml, dst⟩)
    else do
      let (more, ip) ← orErr (varLen (src.take len) (c.ip + 2))
      let ml := 15 + MINMATCH + more
      let mlim ← sub c.dst.length 32
      let room ← sub mlim c.op
      if room < ml then do
        let dst ← matchChecked c.dst c.op offset ml
        .ok (.left ⟨ip, c.op + ml, dst⟩)
      else do
        let dst ← longMatch c.dst m c.op ml offset
        .ok (.next ⟨ip, c.op + ml, dst⟩)

/-- One turn of `fast_loop`. -/
def fastTurn (padded : Bool) (src : Bytes) (len olim : ℕ) (c : Cursor) : Decoded Turn := do
  let token ← orFault src[c.ip]?
  let run ← fastLiterals padded src len olim token ⟨c.ip + 1, c.op, c.dst⟩
  match run with
  | none => .ok (.left c)
  | some l =>
      if len ≤ l.ip then
        if l.ip = len then .ok (.done l.op l.dst) else .err
      else fastMatch src len token l

lemma fastLiterals_le {padded : Bool} {src : Bytes} {len olim : ℕ} {token : UInt8} {c l : Cursor}
    (h : fastLiterals padded src len olim token c = .ok (some l)) : c.ip ≤ l.ip := by
  rw [fastLiterals] at h
  simp only at h
  split at h
  · obtain ⟨dst, -, h⟩ := bind_eq_ok.mp h
    simp only [Decoded.ok.injEq, Option.some.injEq] at h
    rw [← h]
    exact Nat.le_add_right _ _
  · obtain ⟨⟨n, ip⟩, hv, h⟩ := bind_eq_ok.mp h
    have hlt := (varLen_bounds (orErr_eq_ok.mp hv)).1
    obtain ⟨left, -, h⟩ := bind_eq_ok.mp h
    split at h
    · simp at h
    obtain ⟨room, -, h⟩ := bind_eq_ok.mp h
    split at h
    · simp at h
    obtain ⟨lacks, -, h⟩ := bind_eq_ok.mp h
    split at h
    · simp at h
    obtain ⟨dst, -, h⟩ := bind_eq_ok.mp h
    simp only [Decoded.ok.injEq, Option.some.injEq] at h
    rw [← h]
    simp only
    omega

lemma fastMatch_lt {src : Bytes} {len : ℕ} {token : UInt8} {c c' : Cursor}
    (h : fastMatch src len token c = .ok (.next c')) : c.ip < c'.ip := by
  rw [fastMatch] at h
  obtain ⟨offset, -, h⟩ := bind_eq_ok.mp h
  split at h
  · simp at h
  obtain ⟨m, -, h⟩ := bind_eq_ok.mp h
  simp only at h
  split at h
  · obtain ⟨dst, -, h⟩ := bind_eq_ok.mp h
    simp only [Decoded.ok.injEq, Turn.next.injEq] at h
    rw [← h]
    exact Nat.lt_add_of_pos_right (by omega)
  · obtain ⟨⟨more, ip⟩, hv, h⟩ := bind_eq_ok.mp h
    have hlt := (varLen_bounds (orErr_eq_ok.mp hv)).1
    obtain ⟨mlim, -, h⟩ := bind_eq_ok.mp h
    obtain ⟨room, -, h⟩ := bind_eq_ok.mp h
    split at h
    · obtain ⟨dst, -, h⟩ := bind_eq_ok.mp h
      simp at h
    · obtain ⟨dst, -, h⟩ := bind_eq_ok.mp h
      simp only [Decoded.ok.injEq, Turn.next.injEq] at h
      rw [← h]
      simp only
      omega

/-- A turn moves on, having read its token. -/
lemma fastTurn_lt {padded : Bool} {src : Bytes} {len olim : ℕ} {c c' : Cursor}
    (h : fastTurn padded src len olim c = .ok (.next c')) : c.ip < c'.ip ∧ c.ip < src.length := by
  rw [fastTurn] at h
  obtain ⟨token, htok, h⟩ := bind_eq_ok.mp h
  obtain ⟨run, hrun, h⟩ := bind_eq_ok.mp h
  have hip := (List.getElem?_eq_some_iff.mp (orFault_eq_ok.mp htok)).1
  split at h
  · simp at h
  · split at h
    · split at h
      · simp at h
      · simp at h
    · have h1 := fastLiterals_le hrun
      have h2 := fastMatch_lt h
      simp only at h1
      omega

/-- `fast_loop`, from `c`: turns while there is room, `true` where the block ended in one. -/
def fastLoop (padded : Bool) (src : Bytes) (len ilim olim : ℕ) (c : Cursor) :
    Decoded (Bool × Cursor) :=
  if c.op ≤ olim ∧ (padded ∨ c.ip ≤ ilim) then
    match _ : fastTurn padded src len olim c with
    | .ok (.done op dst) => .ok (true, ⟨len, op, dst⟩)
    | .ok (.next c') => fastLoop padded src len ilim olim c'
    | .ok (.left c) => .ok (false, c)
    | .err => .err
    | .fault => .fault
  else .ok (false, c)
termination_by src.length - c.ip
decreasing_by
  rename_i h
  have := fastTurn_lt h
  omega

/-- The fast loop where there is room for one: `true` where the block ended in it. -/
def fastPart (src : Bytes) (len : ℕ) (dst : Bytes) : Decoded (Bool × Cursor) :=
  if 0 < len ∧ FAST_OUT ≤ dst.length then do
    let olim ← sub dst.length FAST_OUT
    let past ← sub src.length len
    if PAD_IN ≤ past then fastLoop true src len 0 olim ⟨0, 0, dst⟩
    else if FAST_IN ≤ src.length then do
      let ilim ← sub src.length FAST_IN
      fastLoop false src len (min ilim (len - 1)) olim ⟨0, 0, dst⟩
    else .ok (false, ⟨0, 0, dst⟩)
  else .ok (false, ⟨0, 0, dst⟩)

/-- `decompress_in`: the block `src[..len]` into `dst`, the decoded length with the buffer. -/
def decompressIn (src : Bytes) (len : ℕ) (dst : Bytes) : Decoded (ℕ × Bytes) :=
  if src.length < len then .err
  else do
    let (fin, c) ← fastPart src len dst
    if fin then .ok (c.op, c.dst) else carefulLoop (src.take len) c

/-- `decompress_into`: the whole of `src` as the block. -/
def decompressInto (src dst : Bytes) : Decoded (ℕ × Bytes) := decompressIn src src.length dst

/-! ## The copies -/

section Copies

variable {out dst : Bytes} {room off ml : ℕ}

/-- A move of a match from one period back, the way the code names its places. -/
lemma moveMatch {k w : ℕ} (h : Written (extendBack out off k) dst room) (hpos : 0 < off)
    (hoff : off ≤ out.length) (hw : w ≤ off) (hroom : out.length + k + w ≤ room) :
    ∃ dst', copyNonoverlapping dst (out.length - off + k) (out.length + k) w = some dst'
      ∧ Written (extendBack out off (k + w)) dst' room := by
  rw [show out.length - off + k = out.length + k - off by omega]
  exact h.moveBack hpos hoff (dvd_refl off) hw (by omega) hroom

/-- The step of a near copy is a whole number of periods, eight or more and less than a period past
eight. -/
lemma step_spec (hpos : 0 < off) (hoff : off < 8) :
    ∃ step, STEP[off % 8]? = some step ∧ off ∣ step ∧ 8 ≤ step ∧ step ≤ 8 + off := by
  interval_cases off
  all_goals exact ⟨_, rfl, by decide, by decide, by decide⟩

lemma nearCopy_spec (h : Written out dst room) (hpos : 0 < off) (hoff : off ≤ out.length)
    (hnear : off < 8) (hml : 4 ≤ ml) (hroom : out.length + ml + 7 ≤ room) :
    ∃ dst', nearCopy dst (out.length - off) out.length ml off = .ok dst'
      ∧ Written (extendBack out off ml) dst' room := by
  obtain ⟨step, hstep, hd, hge, hle⟩ := step_spec hpos hnear
  -- byte by byte for the first eight
  obtain ⟨k1, dst1, he1, hk1, hw1, hk1'⟩ :=
    stride_spec (N := 1) (P := fun k d => Written (extendBack out off k) d room ∧ k ≤ 8) (n := 8)
      (f := fun k dst => copyNonoverlapping dst (out.length - off + k) (out.length + k) 1) (k := 0)
      (by
        intro k d hk hP
        obtain ⟨d', he, hw⟩ := moveMatch hP.1 hpos hoff (w := 1) (by omega) (by omega)
        exact ⟨d', he, hw, by omega⟩)
      (by omega) ⟨h, by omega⟩
  have hk1eq : k1 = 8 := by omega
  subst hk1eq
  rw [nearCopy, he1, orFault_some, ok_bind, hstep, orFault_some, ok_bind]
  rcases Nat.lt_or_ge 8 ml with hmore | hless
  · -- then eight at a time from `step` back
    obtain ⟨k2, dst2, he2, hk2, hw2⟩ :=
      stride_spec (N := 8) (P := fun k d => Written (extendBack out off k) d room ∧ 8 ≤ k) (n := ml)
        (f := fun k dst => moveBack dst (out.length + k) step 8) (k := 8)
        (by
          intro k d hk hP
          obtain ⟨d', he, hw⟩ := hP.1.moveBack hpos hoff hd (w := 8) hge (by omega) (by omega)
          refine ⟨d', ?_, hw, by omega⟩
          rw [moveBack, if_pos (by omega)]
          exact he)
        hmore ⟨hw1, le_refl 8⟩
    rw [if_pos hmore, he2]
    exact ⟨dst2, rfl, hw2.1.weaken (prefix_extendBack hk2)⟩
  · rw [if_neg (by omega)]
    exact ⟨dst1, rfl, hw1.weaken (prefix_extendBack hless)⟩

/-- **A short match** is the reference, with eighteen bytes of room. -/
lemma shortMatch_spec (h : Written out dst room) (hpos : 0 < off) (hoff : off ≤ out.length)
    (hml : 4 ≤ ml) (hml' : ml ≤ 18) (hroom : out.length + 32 ≤ room) :
    ∃ dst', shortMatch dst (out.length - off) out.length ml off = .ok dst'
      ∧ Written (extendBack out off ml) dst' room := by
  rw [shortMatch]
  split
  · rename_i hfar
    obtain ⟨d1, he1, h1⟩ := moveMatch (k := 0) h hpos hoff hfar (by omega)
    obtain ⟨d2, he2, h2⟩ := moveMatch h1 hpos hoff hfar (by omega)
    obtain ⟨d3, he3, h3⟩ := moveMatch h2 hpos hoff (w := 2) (by omega) (by omega)
    simp only [Nat.add_zero, Nat.zero_add] at he1 he2 he3
    rw [he1, orFault_some, ok_bind, he2, orFault_some, ok_bind, he3, orFault_some]
    exact ⟨d3, rfl, h3.weaken (prefix_extendBack hml')⟩
  · exact nearCopy_spec h hpos hoff (by omega) hml (by omega)

/-- **A long match** is the reference, with thirty-two bytes of room past it. -/
lemma longMatch_spec (h : Written out dst room) (hpos : 0 < off) (hoff : off ≤ out.length)
    (hml : 4 ≤ ml) (hroom : out.length + ml + 32 ≤ room) :
    ∃ dst', longMatch dst (out.length - off) out.length ml off = .ok dst'
      ∧ Written (extendBack out off ml) dst' room := by
  rw [longMatch]
  split
  · rename_i hfar
    obtain ⟨d1, he1, h1⟩ := moveMatch (k := 0) h hpos hoff hfar (by omega)
    obtain ⟨d2, he2, h2⟩ := moveMatch h1 hpos hoff hfar (by omega)
    simp only [Nat.add_zero, Nat.zero_add] at he1 he2
    rw [he1, orFault_some, ok_bind, he2, orFault_some, ok_bind]
    rcases Nat.lt_or_ge 32 ml with hmore | hless
    · obtain ⟨k3, d3, he3, hk3, hw3⟩ :=
        stride_spec (N := 16) (P := fun k d => Written (extendBack out off k) d room) (n := ml)

          (fun k d hk hP => moveMatch hP hpos hoff hfar (by omega)) hmore h2
      rw [if_pos hmore, he3]
      exact ⟨d3, rfl, hw3.weaken (prefix_extendBack hk3)⟩
    · rw [if_neg (by omega)]
      exact ⟨d2, rfl, h2.weaken (prefix_extendBack hless)⟩
  split
  · rename_i hfar
    obtain ⟨k3, d3, he3, hk3, hw3⟩ :=
      stride_spec (N := 16) (P := fun k d => Written (extendBack out off k) d room) (n := ml)
        (f := fun k dst => do
          let dst ← copyNonoverlapping dst (out.length - off + k) (out.length + k) 8
          copyNonoverlapping dst (out.length - off + k + 8) (out.length + k + 8) 8)
        (k := 0)
        (by
          intro k d hk hP
          obtain ⟨d1, he1, h1⟩ := moveMatch hP hpos hoff hfar (by omega)
          obtain ⟨d2, he2, h2⟩ := moveMatch h1 hpos hoff hfar (by omega)
          rw [he1]
          exact ⟨d2, he2, h2⟩)
        (by omega) h
    rw [he3]
    exact ⟨d3, rfl, hw3.weaken (prefix_extendBack hk3)⟩
  · exact nearCopy_spec h hpos hoff (by omega) hml (by omega)

end Copies

/-! ## A turn's run -/

section Runs

variable {src out dst : Bytes} {room ip : ℕ}

/-- A run moved wide leaves the run behind the output. -/
lemma written_run {n lit : ℕ} (h : Written (out ++ slice src ip (ip + n)) dst room)
    (hlit : lit ≤ n) : Written (out ++ slice src ip (ip + lit)) dst room := by
  refine h.weaken ?_
  rw [← slice_append_slice src (show ip ≤ ip + lit by omega) (show ip + lit ≤ ip + n by omega),
    ← List.append_assoc]
  exact List.prefix_append _ _

/-- One move more of a run. -/
lemma moveRun {k w : ℕ} (h : Written (out ++ slice src ip (ip + k)) dst room)
    (hin : ip + k + w ≤ src.length) (hroom : out.length + k + w ≤ room) :
    ∃ dst', copyFrom src dst (ip + k) (out.length + k) w = some dst'
      ∧ Written (out ++ slice src ip (ip + (k + w))) dst' room := by
  have hlen : (out ++ slice src ip (ip + k)).length = out.length + k := by
    rw [List.length_append, length_slice_of_le (by omega)]; omega
  obtain ⟨dst', he, hw⟩ := h.copiedFrom (s := ip + k) (n := w) (by omega) (by omega)
  rw [hlen] at he
  rw [List.append_assoc, slice_append_slice src (by omega) (by omega), Nat.add_assoc] at hw
  exact ⟨dst', he, hw⟩

lemma longRun_spec {lit : ℕ} (h : Written out dst room) (hin : ip + lit + 31 ≤ src.length)
    (hin' : ip + 64 ≤ src.length) (hroom : out.length + 64 ≤ room)
    (hroom' : out.length + lit + 31 ≤ room) :
    ∃ dst', longRun src dst ip out.length lit = .ok dst' ∧
    Written (out ++ slice src ip (ip + lit)) dst' room := by
  have h0 : Written (out ++ slice src ip (ip + 0)) dst room := by
    rw [Nat.add_zero, slice_self, List.append_nil]
    exact h
  rw [longRun]
  split
  · rename_i hlit
    obtain ⟨d1, he1, h1⟩ := moveRun (w := 16) h0 (by omega) (by omega)
    obtain ⟨d2, he2, h2⟩ := moveRun (w := 16) h1 (by omega) (by omega)
    obtain ⟨d3, he3, h3⟩ := moveRun (w := 16) h2 (by omega) (by omega)
    obtain ⟨d4, he4, h4⟩ := moveRun (w := 16) h3 (by omega) (by omega)
    simp only [Nat.add_zero, Nat.zero_add, Nat.reduceAdd] at he1 he2 he3 he4
    rw [he1, orFault_some, ok_bind, he2, orFault_some, ok_bind, he3, orFault_some, ok_bind, he4]
    exact ⟨d4, rfl, written_run h4 hlit⟩
  · obtain ⟨k, d, he, hk, hw⟩ :=
      stride_spec (N := 32) (P := fun k d => Written (out ++ slice src ip (ip + k)) d room) (n := lit)

        (fun k d hk hP => moveRun hP (by omega) (by omega)) (by omega) h0
    rw [wildCopy, he]
    exact ⟨d, rfl, written_run hw hk⟩

end Runs

/-! ## What a turn says -/

/-- What one turn says of the block, where `answer` is what the block says from the turn's start: it
is no block; it ends here; or it says what it says from where the turn stopped, at most a byte past
it. -/
inductive TurnSays (block : Bytes) (room : ℕ) (answer : Option Bytes) : Decoded Turn → Prop
  | err (ha : answer = none) : TurnSays block room answer .err
  | done {out dst : Bytes} (h : Written out dst room) (ha : answer = some out) :
      TurnSays block room answer (.ok (.done out.length dst))
  | next {ip : ℕ} {out dst : Bytes} (h : Written out dst room) (hle : ip ≤ block.length + 1)
      (ha : answer = blockFrom block room ip out) :
      TurnSays block room answer (.ok (.next ⟨ip, out.length, dst⟩))
  | left {ip : ℕ} {out dst : Bytes} (h : Written out dst room)
      (ha : answer = blockFrom block room ip out) :
      TurnSays block room answer (.ok (.left ⟨ip, out.length, dst⟩))

section Turns

variable {src out dst : Bytes} {len room ip : ℕ} {token : UInt8}

/-- A match copied in a turn whose offset the block has only one byte of: no block, and the next
turn finds that out. -/
lemma fastMatch_split (hip : ip + 1 = len) (hin : ip + 2 ≤ src.length)
    (h : Written out dst room) (hroom : out.length + 32 ≤ room) :
    TurnSays (src.take len) room none (fastMatch src len token ⟨ip, out.length, dst⟩) := by
  have hB : (src.take len).length = len := by rw [List.length_take]; omega
  rw [fastMatch]
  simp only
  rw [readWord_two, if_pos hin, orFault_some, ok_bind]
  generalize leNat (slice src ip (ip + 2)) = offset
  split
  · exact .err rfl
  rename_i hoff
  rw [not_or, Nat.not_lt] at hoff
  have hpos := Nat.pos_of_ne_zero hoff.1
  rw [sub_of_le hoff.2, ok_bind]
  split
  · rename_i hn
    obtain ⟨dst', he, hw⟩ :=
      @shortMatch_spec _ _ _ _ (token.toNat % 16 + MINMATCH) h hpos hoff.2 (by rw [MINMATCH]; omega)
          (by rw [MINMATCH]; omega) hroom
    rw [he, ok_bind, ← length_extendBack hpos hoff.2]
    exact .next hw (by omega) (blockFrom_of_le (by omega)).symm
  · rw [varLen_none (by omega)]
    exact .err rfl

/-- **A turn's match** is the block's. -/
lemma fastMatch_agree (hlen : len ≤ src.length) (hip : ip < len) (hin : ip + 2 ≤ src.length)
    (h : Written out dst room) (hroom : out.length + 32 ≤ room) :
    TurnSays (src.take len) room
      (afterSequence (src.take len) room (matchAt (src.take len) room token ip out))
      (fastMatch src len token ⟨ip, out.length, dst⟩) := by
  have hB : (src.take len).length = len := by rw [List.length_take]; omega
  rw [matchAt, if_neg (by omega), readWord_two, hB]
  rcases Nat.lt_or_ge len (ip + 2) with hsplit | hwhole
  · rw [if_neg (by omega)]
    exact fastMatch_split (by omega) hin h hroom
  rw [if_pos hwhole, slice_take hwhole, fastMatch]
  simp only
  rw [readWord_two, if_pos hin, orFault_some, ok_bind]
  generalize leNat (slice src ip (ip + 2)) = offset
  split
  · exact .err rfl
  rename_i hoff
  rw [not_or, Nat.not_lt] at hoff
  have hpos := Nat.pos_of_ne_zero hoff.1
  rw [sub_of_le hoff.2, ok_bind]
  rcases Nat.lt_or_ge (token.toNat % 16) 15 with hn | hn
  · obtain ⟨dst', he, hw⟩ :=
      @shortMatch_spec _ _ _ _ (token.toNat % 16 + MINMATCH) h hpos hoff.2 (by rw [MINMATCH]; omega)
          (by rw [MINMATCH]; omega) hroom
    rw [runLen_short hn, if_pos hn, he, ok_bind, ← length_extendBack hpos hoff.2]
    simp only
    rw [if_pos (by rw [MINMATCH]; omega)]
    exact .next hw (by omega) rfl
  rw [if_neg (show ¬token.toNat % 16 < 15 by omega), runLen_long (by omega)]
  rcases hv : varLen (src.take len) (ip + 2) with _ | ⟨more, ip1⟩
  · exact .err rfl
  obtain ⟨-, hip1⟩ := varLen_bounds hv
  simp only [Option.map_some, orErr_some, ok_bind]
  rw [h.length, sub_of_le (show 32 ≤ room by omega), ok_bind, sub_of_le (by omega), ok_bind,
    show 15 + MINMATCH + more = 15 + more + MINMATCH by omega]
  have hml : 4 ≤ 15 + more + MINMATCH := by rw [MINMATCH]; omega
  generalize 15 + more + MINMATCH = ml at hml ⊢
  rcases Nat.lt_or_ge (room - 32 - out.length) ml with hlacks | hfits
  · rw [if_pos hlacks]
    rcases Nat.lt_or_ge room (out.length + ml) with hover | hin'
    · rw [if_neg (by omega), matchChecked_err h hover]
      exact .err rfl
    · obtain ⟨dst', he, hw⟩ := matchChecked_spec h hpos hoff.2 hin'
      rw [if_pos hin', he, ok_bind, ← length_extendBack hpos hoff.2]
      exact .left hw rfl
  · obtain ⟨dst', he, hw⟩ := longMatch_spec h hpos hoff.2 hml (by omega)
    rw [if_pos (by omega), if_neg (by omega), he, ok_bind, ← length_extendBack hpos hoff.2]
    exact .next hw (by omega) rfl

/-- The room a turn begins with: sixty-four bytes of output, and of input a whole turn's, padded or
not. -/
structure TurnRoom (padded : Bool) (src : Bytes) (len olim room ip op : ℕ) : Prop where
  block : len ≤ src.length
  output : olim + FAST_OUT = room
  op_le : op ≤ olim
  input : if padded then len + PAD_IN ≤ src.length ∧ ip ≤ len + 1 else ip + FAST_IN ≤ src.length ∧
    ip < len

lemma TurnRoom.ip_lt {padded : Bool} {olim op : ℕ} (r : TurnRoom padded src len olim room ip op) :
    ip + FAST_IN ≤ src.length := by
  have h := r.input
  rw [FAST_IN, PAD_IN] at *
  cases padded with
  | true =>
      simp only [if_true] at h
      omega
  | false =>
      simp only [Bool.false_eq_true, if_false] at h
      omega

/-- What a turn's run comes to: the block says there is none; it lacks room; or it stands behind the
output, with the room a match needs. -/
inductive RunSays (src block out : Bytes) (room nibble ip : ℕ) : Decoded (Option Cursor) → Prop
  | err (h : ∀ lit ip1, runLen block nibble ip = some (lit, ip1) → block.length < ip1 + lit) :
      RunSays src block out room nibble ip .err
  | lacks : RunSays src block out room nibble ip (.ok none)
  | run {lit ip1 : ℕ} {dst : Bytes} (h : Written (out ++ slice src ip1 (ip1 + lit)) dst room)
      (hrun : runLen block nibble ip = some (lit, ip1)) (hin : ip1 + lit ≤ src.length)
      (hoff : ip1 + lit < block.length → ip1 + lit + 2 ≤ src.length)
      (hroom : out.length + lit + 32 ≤ room) :
      RunSays src block out room nibble ip (.ok (some ⟨ip1 + lit, out.length + lit, dst⟩))

lemma lacksInput_spec {padded : Bool} {lit : ℕ} (hlen : len ≤ src.length) (hip : ip + lit ≤ len)
    (hpad : padded → len + PAD_IN ≤ src.length) :
    ∃ b, lacksInput padded src ip lit = .ok b
      ∧ (b = false → ip + lit + 32 ≤ src.length ∧ ip + 64 ≤ src.length) := by
  rw [lacksInput, PAD_IN] at *
  cases padded with
  | true =>
      have := hpad rfl
      exact ⟨false, rfl, fun _ => by omega⟩
  | false =>
      rw [if_neg (by simp), sub_of_le (by omega), ok_bind]
      split
      · exact ⟨true, rfl, fun h => absurd h (by simp)⟩
      · rw [sub_of_le (by omega), ok_bind]
        refine ⟨_, rfl, fun h => ?_⟩
        rw [decide_eq_false_iff_not] at h
        omega

/-- **A turn's run** is the block's. -/
lemma fastLiterals_agree {padded : Bool} {olim : ℕ}
    (r : TurnRoom padded src len olim room ip out.length) (h : Written out dst room) :
    RunSays src (src.take len) out room (token.toNat / 16) (ip + 1)
      (fastLiterals padded src len olim token ⟨ip + 1, out.length, dst⟩) := by
  have hB : (src.take len).length = len := by rw [List.length_take]; have := r.block; omega
  have hin := r.ip_lt
  have hblock := r.block
  have hout := r.output
  have hop := r.op_le
  have hpad : padded → len + PAD_IN ≤ src.length := by
    intro hp
    have hi := r.input
    rw [if_pos hp] at hi
    exact hi.1
  rw [FAST_IN] at hin
  rw [FAST_OUT] at hout
  rw [fastLiterals]
  simp only
  rcases Nat.lt_or_ge (token.toNat / 16) 15 with hn | hn
  · obtain ⟨dst', he, hw⟩ := @Written.copiedFrom _ _ _ _ h src (ip + 1) 16 (by omega) (by omega)
    rw [if_pos hn, he, orFault_some, ok_bind]
    exact .run (written_run hw (by omega)) (runLen_short hn) (by omega) (fun _ => by omega)
      (by omega)
  · rw [if_neg (by omega)]
    have hnib : token.toNat / 16 = 15 := by have := token.toNat_lt; omega
    have hrun := @runLen_long (src.take len) _ (ip + 1) hnib
    rcases hv : varLen (src.take len) (ip + 1) with _ | ⟨more, ip1⟩
    · rw [hv] at hrun
      exact .err (fun lit ip1 hr => absurd (hrun.symm.trans hr) (by simp))
    obtain ⟨-, hip1⟩ := varLen_bounds hv
    rw [hv, Option.map_some, ← hnib] at hrun
    simp only [orErr_some, ok_bind]
    rw [sub_of_le (by omega), ok_bind]
    generalize token.toNat / 16 + more = lit at hrun ⊢
    rcases Nat.lt_or_ge (len - ip1) lit with hover | hfits
    · rw [if_pos hover]
      refine .err (fun lit' ip1' hr => ?_)
      rw [hrun, Option.some.injEq, Prod.mk.injEq] at hr
      omega
    rw [if_neg (by omega), sub_of_le hop, ok_bind]
    rcases Nat.lt_or_ge (olim - out.length) lit with hlacks | hroom
    · rw [if_pos hlacks]
      exact .lacks
    obtain ⟨b, hb, hbin⟩ := @lacksInput_spec _ _ ip1 _ lit hblock (by omega) hpad
    rw [if_neg (by omega), hb, ok_bind]
    cases b with
    | true => exact .lacks
    | false =>
        obtain ⟨h32, h64⟩ := hbin rfl
        obtain ⟨dst', he, hw⟩ := @longRun_spec _ _ _ _ ip1 lit h (by omega) h64 (by omega) (by omega)
        rw [if_neg (by simp), he, ok_bind]
        exact .run hw hrun (by omega) (fun _ => by omega) (by omega)

/-- **Every turn begun with its room says what the block says**, and forms no index outside its
buffers. -/
lemma fastTurn_agree {padded : Bool} {olim : ℕ}
    (r : TurnRoom padded src len olim room ip out.length) (h : Written out dst room) :
    TurnSays (src.take len) room (blockFrom (src.take len) room ip out)
      (fastTurn padded src len olim ⟨ip, out.length, dst⟩) := by
  have hB : (src.take len).length = len := by rw [List.length_take]; have := r.block; omega
  have hin := r.ip_lt
  rw [FAST_IN] at hin
  have hip : ip < src.length := by omega
  rw [fastTurn]
  simp only
  rw [List.getElem?_eq_getElem hip, orFault_some, ok_bind]
  have hrun := @fastLiterals_agree _ _ _ _ _ _ (src[ip]) _ _ r h
  have hans : blockFrom (src.take len) room ip out
      = if ip < len then afterSequence (src.take len) room (sequenceAt (src.take len) room ip out)
      else none := by
    split
    · exact blockFrom_of_lt (by omega)
    · exact blockFrom_of_le (by omega)
  have htok : ip < len → (src.take len)[ip]? = some src[ip] := by
    intro hlt
    rw [List.getElem?_take, if_pos hlt, List.getElem?_eq_getElem hip]
  generalize fastLiterals padded src len olim src[ip] ⟨ip + 1, out.length, dst⟩ = run at hrun ⊢
  cases hrun with
  | lacks => exact .left h rfl
  | err hbad =>
      refine .err ?_
      rw [hans]
      split
      · rename_i hlt
        rw [sequenceAt, htok hlt]
        simp only
        split
        · rfl
        · rename_i heq
          have := hbad _ _ heq
          rw [if_neg (by omega)]
          rfl
      · rfl
  | run hw hr hend hoff hroom =>
      rename_i lit ip1 dst'
      simp only [ok_bind]
      -- a turn begun at the block's end or past it reads a run that ends past it
      have hpast : ¬ip < len → len < ip1 + lit := by
        intro hge
        rw [runLen] at hr
        split at hr
        · rw [varLen_none (by omega)] at hr
          simp at hr
        · simp only [Option.some.injEq, Prod.mk.injEq] at hr
          omega
      rcases Nat.lt_or_ge len (ip1 + lit) with hover | hfits
      · rw [if_pos (by omega), if_neg (by omega)]
        refine .err ?_
        rw [hans]
        split
        · rename_i hlt
          rw [sequenceAt, htok hlt]
          simp only [hr]
          rw [if_neg (by omega)]
          rfl
        · rfl
      have hlt : ip < len := by
        by_contra hge
        have := hpast hge
        omega
      have hlen1 : (out ++ slice src ip1 (ip1 + lit)).length = out.length + lit := by
        rw [List.length_append, length_slice_of_le hend]; omega
      rw [hans, if_pos hlt, sequenceAt, htok hlt]
      simp only [hr]
      rw [if_pos (by omega), slice_take hfits, ← hlen1]
      have hroom1 : (out ++ slice src ip1 (ip1 + lit)).length + 32 ≤ room := by omega
      generalize out ++ slice src ip1 (ip1 + lit) = out1 at hw hroom1 ⊢
      split
      · rename_i hle
        have heq : ip1 + lit = len := by omega
        rw [if_pos heq]
        refine .done hw ?_
        rw [matchAt, if_pos (by omega)]
        rfl
      · exact fastMatch_agree r.block (by omega) (hoff (by omega)) hw hroom1

end Turns

/-! ## The loop and the decoder -/

/-- What the fast loop says of the block: it is none; it ended in the loop; or it goes on from where
the loop stopped. -/
inductive LoopSays (block : Bytes) (room : ℕ) (answer : Option Bytes) : Decoded (Bool × Cursor) →
    Prop
  | err (ha : answer = none) : LoopSays block room answer .err
  | done {ip : ℕ} {out dst : Bytes} (h : Written out dst room) (ha : answer = some out) :
      LoopSays block room answer (.ok (true, ⟨ip, out.length, dst⟩))
  | left {ip : ℕ} {out dst : Bytes} (h : Written out dst room)
      (ha : answer = blockFrom block room ip out) :
      LoopSays block room answer (.ok (false, ⟨ip, out.length, dst⟩))

section Loop

variable {src out dst : Bytes} {len room ip ilim olim : ℕ}

/-- **The loop says what the block says**, by induction on the input a turn may still begin at. -/
lemma fastLoop_agree {padded : Bool} (hlen : len ≤ src.length) (hout : olim + FAST_OUT = room)
    (hin : if padded then len + PAD_IN ≤ src.length else ilim + FAST_IN ≤ src.length ∧ ilim < len)
    (hip : padded → ip ≤ len + 1) (h : Written out dst room) :
    LoopSays (src.take len) room (blockFrom (src.take len) room ip out)
      (fastLoop padded src len ilim olim ⟨ip, out.length, dst⟩) := by
  have hB : (src.take len).length = len := by rw [List.length_take]; omega
  induction hk : src.length - ip using Nat.strong_induction_on generalizing ip out dst with
  | _ k ih =>
      rw [fastLoop]
      simp only
      split
      · rename_i hturn
        have r : TurnRoom padded src len olim room ip out.length := by
          refine ⟨hlen, hout, hturn.1, ?_⟩
          cases padded with
          | true => exact ⟨hin, hip rfl⟩
          | false =>
              simp only [Bool.false_eq_true, if_false, false_or] at hin hturn ⊢
              omega
        have hsays := fastTurn_agree r h
        split
        all_goals rename_i hcode
        all_goals rw [hcode] at hsays
        all_goals cases hsays
        · rename_i ha hw
          exact .done hw ha
        · rename_i hw hle ha
          have hlt := fastTurn_lt hcode
          simp only at hlt
          rw [ha]
          exact ih _ (by omega) (fun _ => by omega) hw rfl
        · rename_i hw ha
          exact .left hw ha
        · rename_i ha
          exact .err ha
      · exact .left h rfl

lemma fastPart_agree (hlen : len ≤ src.length) :
    LoopSays (src.take len) dst.length (blockFrom (src.take len) dst.length 0 [])
    (fastPart src len dst) := by
  have h : Written [] dst dst.length := ⟨List.nil_prefix, rfl⟩
  rw [fastPart]
  split
  · rename_i hroom
    rw [sub_of_le hroom.2, ok_bind, sub_of_le hlen, ok_bind]
    split
    · rename_i hpad
      exact fastLoop_agree hlen (Nat.sub_add_cancel hroom.2) (by rw [if_pos rfl]; omega) (fun _ => by omega) h
    split
    · rename_i hread
      rw [sub_of_le hread, ok_bind]
      refine fastLoop_agree hlen (Nat.sub_add_cancel hroom.2) ?_ (fun hc => absurd hc (by simp)) h
      rw [if_neg (by simp)]
      omega
    · exact .left h rfl
  · exact .left h rfl

end Loop

/-- Two decodes into buffers of `room` bytes answer alike: both no block, or the same length and the
same bytes up to it. -/
inductive SameAnswer (room : ℕ) : Decoded (ℕ × Bytes) → Decoded (ℕ × Bytes) → Prop
  | err : SameAnswer room .err .err
  | ok {n : ℕ} {dst dst' : Bytes} (hn : n ≤ room) (hdst : dst.length = room)
      (hdst' : dst'.length = room)
      (h : dst.take n = dst'.take n) : SameAnswer room (.ok (n, dst)) (.ok (n, dst'))

/-- The fast decoder says what the block says. -/
lemma decompressIn_decodes {src : Bytes} {len : ℕ} (dst : Bytes) (hlen : len ≤ src.length) :
    Decodes dst.length (decompressIn src len dst) (blockFrom (src.take len) dst.length 0 []) := by
  have hfast := @fastPart_agree _ dst _ hlen
  rw [decompressIn, if_neg (by omega)]
  generalize fastPart src len dst = fast at hfast ⊢
  cases hfast with
  | err ha =>
      rw [ha]
      exact .err
  | done hw ha =>
      rw [ha]
      exact .ok hw
  | left hw ha =>
      rw [ha]
      exact carefulLoop_decodes hw

lemma Decodes.sameAnswer {room : ℕ} {r r' : Decoded (ℕ × Bytes)} {answer : Option Bytes}
    (h : Decodes room r answer) (h' : Decodes room r' answer) : SameAnswer room r r' := by
  cases h with
  | err =>
      cases h' with
      | err => exact .err
  | ok hw =>
      cases h' with
      | ok hw' => exact .ok hw.length_le hw.length hw'.length (hw.take_eq.trans hw'.take_eq.symm)

/-- **The fast decoder agrees with the careful one.**  On every input, whatever follows the block in
it, both find no block or both decode the same bytes; neither forms an index outside its buffers or
a difference below zero. -/
theorem decompressIn_agrees (src : Bytes) (len : ℕ) (dst : Bytes) (hlen : len ≤ src.length) :
    SameAnswer dst.length (decompressIn src len dst) (carefulLoop (src.take len) ⟨0, 0, dst⟩) :=
  (decompressIn_decodes dst hlen).sameAnswer (carefulLoop_decodes ⟨List.nil_prefix, rfl⟩)

/-- A run of four, and a match of twenty-four from one byte back behind it, in a page with other
bytes after. -/
theorem decompressIn_agrees_run :
    SameAnswer 100 (decompressIn ([0x4f, 97, 98, 99, 100, 1, 0, 5, 0x50, 1, 2, 3, 4, 5] ++ List.replicate 80 7) 14
        (List.replicate 100 0))
      (carefulLoop [0x4f, 97, 98, 99, 100, 1, 0, 5, 0x50, 1, 2, 3, 4, 5] ⟨0, 0, List.replicate 100 0⟩) :=
  decompressIn_agrees ([0x4f, 97, 98, 99, 100, 1, 0, 5, 0x50, 1, 2, 3, 4, 5] ++ List.replicate 80 7)
    14 (List.replicate 100 0) (by decide)

end Supdb

import Supdb.Lib.CopyBack

/-!
# LZ4 blocks, decoded a sequence at a time

A block is sequences: a token, a run of literals, and but for the last a match, an offset back and a
length.  The careful decoder reads one sequence with every bound checked.

* **`carefulSequence`, `carefulLoop`** – the decoder's code: the output is a buffer given from
  outside, and each index and each subtraction is checked.  A step that would leave its buffer or go
  below zero is a `fault`; bytes that are no block are an `err`.
* **`sequenceAt`, `blockFrom`** – what a block says, over the output written so far and nothing
  else: a run is appended, and a match is `extendBack`.
* **`carefulSequence_follows`, `carefulLoop_follows`** – the careful decoder says what the block
  says and never faults, whatever the buffer held before.
-/

namespace Supdb

open StorageLib

/-! ## Outcomes -/

/-- What a decoder's code comes to: a value, bytes that are not a block, or a step outside its
buffers. -/
inductive Decoded (α : Type) where
  | ok (a : α)
  | err
  | fault
  deriving Repr, DecidableEq

namespace Decoded

variable {α β : Type}

/-- The `?` of the code. -/
def bind : Decoded α → (α → Decoded β) → Decoded β
  | .ok a, f => f a
  | .err, _ => .err
  | .fault, _ => .fault

instance : Monad Decoded where
  pure := .ok
  bind := bind

@[simp] lemma ok_bind (a : α) (f : α → Decoded β) : (Decoded.ok a >>= f) = f a := rfl
@[simp] lemma err_bind (f : α → Decoded β) : ((Decoded.err : Decoded α) >>= f) = .err := rfl
@[simp] lemma fault_bind (f : α → Decoded β) : ((Decoded.fault : Decoded α) >>= f) = .fault := rfl
@[simp] lemma pure_eq (a : α) : (pure a : Decoded α) = .ok a := rfl

/-- `ok_or(DecodeError)`. -/
def orErr : Option α → Decoded α
  | some a => .ok a
  | none => .err

/-- An index or a move that has to be inside its buffer. -/
def orFault : Option α → Decoded α
  | some a => .ok a
  | none => .fault

@[simp] lemma orErr_some (a : α) : orErr (some a) = .ok a := rfl
@[simp] lemma orErr_none : orErr (none : Option α) = .err := rfl
@[simp] lemma orFault_some (a : α) : orFault (some a) = .ok a := rfl

/-- A difference of two unsigned numbers. -/
def sub (a b : ℕ) : Decoded ℕ := if b ≤ a then .ok (a - b) else .fault

lemma sub_of_le {a b : ℕ} (h : b ≤ a) : sub a b = .ok (a - b) := if_pos h

lemma bind_eq_ok {x : Decoded α} {f : α → Decoded β} {b : β} :
    (x >>= f) = .ok b ↔ ∃ a, x = .ok a ∧ f a = .ok b := by
  cases x with
  | ok a => simp
  | err => simp
  | fault => simp

lemma orFault_eq_ok {o : Option α} {a : α} : orFault o = .ok a ↔ o = some a := by
  cases o with
  | none => simp [orFault]
  | some b => simp [orFault]

lemma orErr_eq_ok {o : Option α} {a : α} : orErr o = .ok a ↔ o = some a := by
  cases o with
  | none => simp [orErr]
  | some b => simp [orErr]

end Decoded

open Decoded

/-! ## The careful decoder -/

/-- The shortest match a sequence has. -/
def MINMATCH : ℕ := 4

/-- `var_len`, with what it has added up. -/
def varLenLoop (src : Bytes) (n ip : ℕ) : Option (ℕ × ℕ) :=
  if h : ip < src.length then
    if src[ip] = 255 then varLenLoop src (n + 255) (ip + 1) else some (n + src[ip].toNat, ip + 1)
  else none
termination_by src.length - ip

/-- `var_len`: the length's continuation bytes at `ip`, and where they end. -/
def varLen (src : Bytes) (ip : ℕ) : Option (ℕ × ℕ) := varLenLoop src 0 ip

/-- A length of a token: its four bits, and where they are all set, its continuation bytes too. -/
def runLen (src : Bytes) (nibble ip : ℕ) : Option (ℕ × ℕ) :=
  if nibble = 15 then (varLen src ip).map (fun r => (nibble + r.1, r.2)) else some (nibble, ip)

/-- The turns of `copy_overlap`; a turn that copies nothing would go on for ever, so `fuel` is the
bytes left. -/
def overlapLoop (dst : Bytes) (period start n : ℕ) : ℕ → ℕ → ℕ → Decoded Bytes
  | done, span, fuel =>
      if done < n then
        match fuel with
        | 0 => .fault
        | fuel + 1 => do
            let k := min span (n - done)
            let s ← sub (start + done) span
            let dst ← orFault (copyWithin dst s (start + done) k)
            overlapLoop dst period start n (done + k) (min (span * 2) (done + k + period)) fuel
      else .ok dst
termination_by _ _ fuel => fuel

/-- `copy_overlap`: `n` bytes from `src` to `start`, which is nearer than `n`. -/
def copyOverlap (dst : Bytes) (src start n : ℕ) : Decoded Bytes := do
  let period ← sub start src
  overlapLoop dst period start n 0 period n

/-- `match_checked`: a match of `ml` from `offset` back. -/
def matchChecked (dst : Bytes) (op offset ml : ℕ) : Decoded Bytes := do
  let room ← sub dst.length op
  if room < ml then .err
  else do
    let m ← sub op offset
    if ml ≤ offset then orFault (copyNonoverlapping dst m op ml) else copyOverlap dst m op ml

/-- Where a decoder is: in the block, in the output, and the output itself. -/
structure Cursor where
  ip : ℕ
  op : ℕ
  dst : Bytes
  deriving Repr, DecidableEq

/-- `careful_sequence`: one sequence, `true` for the block's last. -/
def carefulSequence (src : Bytes) (c : Cursor) : Decoded (Bool × Cursor) := do
  let token ← orErr src[c.ip]?
  let (lit, ip) ← orErr (runLen src (token.toNat / 16) (c.ip + 1))
  let left ← sub src.length ip
  if left < lit then .err
  else do
    let room ← sub c.dst.length c.op
    if room < lit then .err
    else do
      let dst ← orFault (copyFrom src c.dst ip c.op lit)
      let (ip, op) := (ip + lit, c.op + lit)
      if ip = src.length then .ok (true, ⟨ip, op, dst⟩)
      else do
        let left ← sub src.length ip
        if left < 2 then .err
        else do
          let offset ← orFault (readWord 2 src ip)
          if offset = 0 ∨ op < offset then .err
          else do
            let (n, ip) ← orErr (runLen src (token.toNat % 16) (ip + 2))
            let ml := n + MINMATCH
            let dst ← matchChecked dst op offset ml
            .ok (false, ⟨ip, op + ml, dst⟩)

/-! ## What a block says -/

/-- The rest of a sequence behind its literals: the block's end, or a match. -/
def matchAt (src : Bytes) (room : ℕ) (token : UInt8) (ip : ℕ) (out : Bytes) :
    Option (Bool × ℕ × Bytes) :=
  if ip = src.length then some (true, ip, out)
  else
    match readWord 2 src ip with
    | none => none
    | some offset =>
        if offset = 0 ∨ out.length < offset then none
        else
          match runLen src (token.toNat % 16) (ip + 2) with
          | none => none
          | some (n, ip) =>
              if out.length + (n + MINMATCH) ≤ room then
                some (false, ip, extendBack out offset (n + MINMATCH))
              else none

/-- One sequence of a block, over the output so far: whether it is the last, where it ends, and the
output then. -/
def sequenceAt (src : Bytes) (room ip : ℕ) (out : Bytes) : Option (Bool × ℕ × Bytes) :=
  match src[ip]? with
  | none => none
  | some token =>
      match runLen src (token.toNat / 16) (ip + 1) with
      | none => none
      | some (lit, ip) =>
          if ip + lit ≤ src.length ∧ out.length + lit ≤ room then
            matchAt src room token (ip + lit) (out ++ slice src ip (ip + lit))
          else none

/-! ## Lengths -/

lemma varLenLoop_bounds {src : Bytes} {n ip m ip' : ℕ} (h : varLenLoop src n ip = some (m, ip')) :
    ip < ip' ∧ ip' ≤ src.length := by
  induction hk : src.length - ip using Nat.strong_induction_on generalizing n ip with
  | _ k ih =>
      rw [varLenLoop] at h
      split at h
      · rename_i hip
        split at h
        · obtain ⟨hlt, hle⟩ := ih (src.length - (ip + 1)) (by omega) h rfl
          exact ⟨by omega, hle⟩
        · simp only [Option.some.injEq, Prod.mk.injEq] at h
          omega
      · exact absurd h (by simp)

lemma varLen_bounds {src : Bytes} {ip m ip' : ℕ} (h : varLen src ip = some (m, ip')) :
    ip < ip' ∧ ip' ≤ src.length :=
  varLenLoop_bounds h

lemma runLen_bounds {src : Bytes} {nibble ip m ip' : ℕ} (h : runLen src nibble ip = some (m, ip'))
    (hip : ip ≤ src.length) : ip ≤ ip' ∧ ip' ≤ src.length := by
  rw [runLen] at h
  split at h
  · obtain ⟨⟨n, j⟩, hv, he⟩ := Option.map_eq_some_iff.mp h
    simp only [Prod.mk.injEq] at he
    obtain ⟨hlt, hle⟩ := varLen_bounds hv
    omega
  · simp only [Option.some.injEq, Prod.mk.injEq] at h
    omega

lemma runLen_short {src : Bytes} {nibble ip : ℕ} (h : nibble < 15) :
    runLen src nibble ip = some (nibble, ip) :=
  if_neg (by omega)

lemma runLen_long {src : Bytes} {nibble ip : ℕ} (h : nibble = 15) :
    runLen src nibble ip = (varLen src ip).map (fun r => (15 + r.1, r.2)) := by
  subst h
  exact if_pos rfl

/-- No length is read past the block. -/
lemma varLen_none {src : Bytes} {ip : ℕ} (h : src.length ≤ ip) : varLen src ip = none := by
  rw [varLen, varLenLoop, dif_neg (by omega)]

lemma readWord_two {src : Bytes} {ip : ℕ} :
    readWord 2 src ip = if ip + 2 ≤ src.length then some (leNat (slice src ip (ip + 2)))
    else none := by
  rw [readWord, getRange]
  split_ifs <;> simp_all

lemma matchAt_bounds {src : Bytes} {room ip ip' : ℕ} {token : UInt8} {out out' : Bytes}
    (h : matchAt src room token ip out = some (false, ip', out')) : ip < ip' ∧
    ip' ≤ src.length := by
  rw [matchAt] at h
  split at h
  · simp at h
  rw [readWord_two] at h
  split at h
  · simp at h
  rename_i hread
  split at h
  · simp at h
  split at h
  · simp at h
  rename_i hrun
  split at h
  · have h2 : ip + 2 ≤ src.length := by
      by_contra hc
      rw [if_neg hc] at hread
      simp at hread
    obtain ⟨hle, hend⟩ := runLen_bounds hrun h2
    simp only [Option.some.injEq, Prod.mk.injEq, true_and] at h
    omega
  · simp at h

/-- A sequence that is not the last ends further on, inside the block. -/
lemma sequenceAt_bounds {src : Bytes} {room ip ip' : ℕ} {out out' : Bytes}
    (h : sequenceAt src room ip out = some (false, ip', out')) : ip < ip' ∧ ip' ≤ src.length := by
  rw [sequenceAt] at h
  split at h
  · simp at h
  rename_i htok
  have hip := (List.getElem?_eq_some_iff.mp htok).1
  split at h
  · simp at h
  rename_i hrun
  obtain ⟨hle, hend⟩ := runLen_bounds hrun (by omega)
  split at h
  · rename_i hfit
    obtain ⟨hlt, hle'⟩ := matchAt_bounds h
    omega
  · simp at h

/-- What the block says from `ip` on, over the output so far; `none` where it is no block. -/
def blockFrom (src : Bytes) (room ip : ℕ) (out : Bytes) : Option Bytes :=
  if ip < src.length then
    match _ : sequenceAt src room ip out with
    | none => none
    | some (true, _, out) => some out
    | some (false, ip', out') => blockFrom src room ip' out'
  else none
termination_by src.length - ip
decreasing_by
  rename_i h
  have := sequenceAt_bounds h
  omega

/-- What the block says behind a sequence. -/
def afterSequence (src : Bytes) (room : ℕ) : Option (Bool × ℕ × Bytes) → Option Bytes
  | none => none
  | some (true, _, out) => some out
  | some (false, ip, out) => blockFrom src room ip out

lemma blockFrom_of_lt {src out : Bytes} {room ip : ℕ} (h : ip < src.length) :
    blockFrom src room ip out = afterSequence src room (sequenceAt src room ip out) := by
  rw [blockFrom, if_pos h]
  split
  all_goals rename_i heq
  all_goals rw [heq]
  all_goals rfl

lemma blockFrom_of_le {src out : Bytes} {room ip : ℕ} (h : src.length ≤ ip) :
    blockFrom src room ip out = none := by
  rw [blockFrom, if_neg (by omega)]

/-! ## The careful decoder's copies -/

section Copies

variable {out dst : Bytes} {room off : ℕ}

/-- **The doubling copy is the reference.**  What is done and what is copied next are whole periods
until the last copy, so every copy continues the repeat. -/
lemma overlapLoop_spec (hpos : 0 < off) (hoff : off ≤ out.length) {n : ℕ}
    (hroom : out.length + n ≤ room) (fuel : ℕ) :
    ∀ {dst : Bytes} {done span : ℕ}, Written (extendBack out off done) dst room → done ≤ n →
      (done < n → off ∣ done ∧ off ∣ span) → 0 < span → span ≤ done + off → n - done ≤ fuel →
      ∃ dst', overlapLoop dst off out.length n done span fuel = .ok dst'
        ∧ Written (extendBack out off n) dst' room := by
  induction fuel with
  | zero =>
      intro dst done span h hdone hdiv hspan hle hfuel
      have hn : done = n := by omega
      subst hn
      rw [overlapLoop, if_neg (Nat.lt_irrefl done)]
      exact ⟨dst, rfl, h⟩
  | succ fuel ih =>
      intro dst done span h hdone hdiv hspan hle hfuel
      rw [overlapLoop]
      rcases Nat.lt_or_ge done n with hlt | hge
      · obtain ⟨hddone, hdspan⟩ := hdiv hlt
        have hlen := length_extendBack hpos hoff done
        set k := min span (n - done) with hk
        obtain ⟨dst', he, hw⟩ :=
          h.copiedWithin (s := out.length + done - span) (n := k) (by omega) (by omega)
        rw [hlen] at he
        rw [← extendBack_add hpos hoff hdspan (Nat.min_le_left _ _) hle] at hw
        simp only [if_pos hlt, sub_of_le (show span ≤ out.length + done by omega), ok_bind, he, orFault_some]
        refine ih hw (by omega) ?_ (by omega) (by omega) (by omega)
        intro hmore
        -- the copy was of the whole span, so whole periods are done and whole periods come next
        have hkspan : k = span := by omega
        rw [hkspan]
        refine ⟨hddone.add hdspan, ?_⟩
        rcases min_choice (span * 2) (done + span + off) with hm | hm
        · rw [hm]; exact hdspan.mul_right 2
        · rw [hm]; exact (hddone.add hdspan).add (dvd_refl off)
      · have hn : done = n := by omega
        subst hn
        rw [if_neg (Nat.lt_irrefl done)]
        exact ⟨dst, rfl, h⟩

lemma copyOverlap_spec (h : Written out dst room) (hpos : 0 < off) (hoff : off ≤ out.length) {n : ℕ}
    (hroom : out.length + n ≤ room) :
    ∃ dst', copyOverlap dst (out.length - off) out.length n = .ok dst'
      ∧ Written (extendBack out off n) dst' room := by
  have hper : out.length - (out.length - off) = off := by omega
  rw [copyOverlap, sub_of_le (Nat.sub_le _ _), hper]
  exact overlapLoop_spec hpos hoff hroom n h (Nat.zero_le n) (fun _ => ⟨dvd_zero off, dvd_refl off⟩)
    hpos (by omega) (by omega)

/-- A match that fits is the reference. -/
lemma matchChecked_spec (h : Written out dst room) (hpos : 0 < off) (hoff : off ≤ out.length)
    {ml : ℕ} (hroom : out.length + ml ≤ room) :
    ∃ dst', matchChecked dst out.length off ml = .ok dst' ∧
    Written (extendBack out off ml) dst' room := by
  rw [matchChecked, sub_of_le (by rw [h.length]; exact h.length_le), ok_bind,
    if_neg (by rw [h.length]; omega), sub_of_le hoff, ok_bind]
  rcases Nat.lt_or_ge off ml with hlt | hge
  · rw [if_neg (by omega)]
    exact copyOverlap_spec h hpos hoff hroom
  · rw [if_pos hge]
    obtain ⟨dst', he, hw⟩ :=
      Written.moveBack (k := 0) h hpos hoff (dvd_refl off) hge (by omega) (by omega)
    rw [Nat.zero_add] at hw
    rw [Nat.add_zero] at he
    exact ⟨dst', by rw [he]; rfl, hw⟩

/-- A match that does not fit is no block. -/
lemma matchChecked_err (h : Written out dst room) {ml : ℕ} (hroom : room < out.length + ml) :
    matchChecked dst out.length off ml = .err := by
  have hout := h.length_le
  rw [matchChecked, sub_of_le (by rw [h.length]; exact hout), ok_bind,
    if_pos (by rw [h.length]; omega)]

end Copies

/-! ## The careful decoder says what the block says -/

/-- The code's step and the block's: both no block, or the same sequence, with the output written so
far in the buffer. -/
inductive Follows (room : ℕ) : Decoded (Bool × Cursor) → Option (Bool × ℕ × Bytes) → Prop
  | err : Follows room .err none
  | ok {last : Bool} {ip : ℕ} {out dst : Bytes} (h : Written out dst room) :
      Follows room (.ok (last, ⟨ip, out.length, dst⟩)) (some (last, ip, out))

/-- **One careful sequence** is the block's, whatever the buffer holds past the output. -/
lemma carefulSequence_follows {src out dst : Bytes} {room ip : ℕ} (h : Written out dst room) :
    Follows room (carefulSequence src ⟨ip, out.length, dst⟩) (sequenceAt src room ip out) := by
  rw [carefulSequence, sequenceAt]
  simp only
  rcases htok : src[ip]? with _ | token
  · exact .err
  have hip : ip < src.length := (List.getElem?_eq_some_iff.mp htok).1
  simp only [orErr_some, ok_bind]
  rcases hlit : runLen src (token.toNat / 16) (ip + 1) with _ | ⟨lit, ip1⟩
  · exact .err
  obtain ⟨-, hip1⟩ := runLen_bounds hlit (by omega)
  have hout := h.length_le
  simp only [orErr_some, ok_bind, sub_of_le hip1, h.length, sub_of_le hout]
  rcases Nat.lt_or_ge (src.length - ip1) lit with hshort | hfits
  · rw [if_pos hshort, if_neg (by omega)]
    exact .err
  rw [if_neg (by omega)]
  rcases Nat.lt_or_ge (room - out.length) lit with hover | hroom
  · rw [if_pos hover, if_neg (by omega)]
    exact .err
  rw [if_neg (by omega), if_pos ⟨by omega, by omega⟩]
  obtain ⟨dst1, he1, h1⟩ := @Written.copiedFrom _ _ _ _ h src ip1 lit (by omega) (by omega)
  have hlen1 : (out ++ slice src ip1 (ip1 + lit)).length = out.length + lit := by
    rw [List.length_append, length_slice_of_le (by omega)]; omega
  simp only [he1, orFault_some, ok_bind]
  rw [← hlen1]
  -- from here on the output is the one with the run appended
  generalize out ++ slice src ip1 (ip1 + lit) = out1 at h1 ⊢
  rw [matchAt]
  split
  · exact .ok h1
  rename_i hend
  rw [sub_of_le (by omega), ok_bind, readWord_two]
  rcases Nat.lt_or_ge (src.length - (ip1 + lit)) 2 with htwo | htwo
  · rw [if_pos htwo, if_neg (by omega)]
    exact .err
  rw [if_neg (by omega), if_pos (by omega)]
  simp only [orFault_some, ok_bind]
  generalize leNat (slice src (ip1 + lit) (ip1 + lit + 2)) = offset
  split
  · exact .err
  rename_i hoff
  rw [not_or, Nat.not_lt] at hoff
  rcases runLen src (token.toNat % 16) (ip1 + lit + 2) with _ | ⟨n, ip2⟩
  · exact .err
  simp only [orErr_some, ok_bind]
  rcases Nat.lt_or_ge room (out1.length + (n + MINMATCH)) with hover | hroom
  · rw [if_neg (by omega), matchChecked_err h1 hover]
    exact .err
  · obtain ⟨dst2, he2, h2⟩ := matchChecked_spec h1 (Nat.pos_of_ne_zero hoff.1) hoff.2 hroom
    rw [if_pos hroom, he2, ok_bind, ← length_extendBack (Nat.pos_of_ne_zero hoff.1) hoff.2]
    exact .ok h2

/-- The code's step moves on, whatever its cursor. -/
lemma carefulSequence_lt {src : Bytes} {c c' : Cursor}
    (h : carefulSequence src c = .ok (false, c')) : c.ip < c'.ip := by
  rw [carefulSequence] at h
  obtain ⟨token, htok, h⟩ := bind_eq_ok.mp h
  have hip := (List.getElem?_eq_some_iff.mp (orErr_eq_ok.mp htok)).1
  obtain ⟨⟨lit, ip1⟩, hlit, h⟩ := bind_eq_ok.mp h
  obtain ⟨hle1, -⟩ := runLen_bounds (orErr_eq_ok.mp hlit) (by omega)
  obtain ⟨left, -, h⟩ := bind_eq_ok.mp h
  split at h
  · simp at h
  obtain ⟨room, -, h⟩ := bind_eq_ok.mp h
  split at h
  · simp at h
  obtain ⟨dst, -, h⟩ := bind_eq_ok.mp h
  simp only at h
  split at h
  · simp at h
  obtain ⟨left2, hleft2, h⟩ := bind_eq_ok.mp h
  split at h
  · simp at h
  rename_i htwo
  obtain ⟨offset, -, h⟩ := bind_eq_ok.mp h
  split at h
  · simp at h
  obtain ⟨⟨n, ip2⟩, hn, h⟩ := bind_eq_ok.mp h
  have hsub : left2 = src.length - (ip1 + lit) ∧ ip1 + lit ≤ src.length := by
    rw [sub] at hleft2
    split at hleft2
    · simp only [Decoded.ok.injEq] at hleft2
      omega
    · simp at hleft2
  obtain ⟨hle2, -⟩ := runLen_bounds (orErr_eq_ok.mp hn) (by omega)
  obtain ⟨dst2, -, h⟩ := bind_eq_ok.mp h
  simp only [Decoded.ok.injEq, Prod.mk.injEq, true_and] at h
  rw [← h]
  simp only
  omega

/-- The careful loop: `careful_sequence` to the block's last, the decoded length with the buffer. -/
def carefulLoop (src : Bytes) (c : Cursor) : Decoded (ℕ × Bytes) :=
  if c.ip < src.length then
    match _ : carefulSequence src c with
    | .ok (true, c) => .ok (c.op, c.dst)
    | .ok (false, c') => carefulLoop src c'
    | .err => .err
    | .fault => .fault
  else .err
termination_by src.length - c.ip
decreasing_by
  rename_i h
  have := carefulSequence_lt h
  omega

/-- A whole decode and what the block says: both no block, or the same output, at the buffer's
start. -/
inductive Decodes (room : ℕ) : Decoded (ℕ × Bytes) → Option Bytes → Prop
  | err : Decodes room .err none
  | ok {out dst : Bytes} (h : Written out dst room) : Decodes room (.ok (out.length, dst))
    (some out)

/-- **The careful decoder says what the block says**, from any place in it. -/
theorem carefulLoop_decodes {src out dst : Bytes} {room ip : ℕ} (h : Written out dst room) :
    Decodes room (carefulLoop src ⟨ip, out.length, dst⟩) (blockFrom src room ip out) := by
  induction hk : src.length - ip using Nat.strong_induction_on generalizing ip out dst with
  | _ k ih =>
      rw [carefulLoop, blockFrom]
      simp only
      split
      · rename_i hip
        have hstep := @carefulSequence_follows src _ _ _ ip h
        split
        all_goals rename_i hcode
        all_goals rw [hcode] at hstep
        all_goals split
        all_goals rename_i hblock
        all_goals rw [hblock] at hstep
        all_goals cases hstep
        · rename_i hw
          exact .ok hw
        · rename_i hw
          obtain ⟨hlt, hle⟩ := sequenceAt_bounds hblock
          exact ih _ (by omega) hw rfl
        · exact .err
      · exact .err

end Supdb

import Supdb.Lib.Trap
import Supdb.Manifest

/-!
# Reading any slot

A slot's bytes are what a publish left there, what a crash tore or what something else wrote, and
`manifest_parse` takes its lengths and its count from them.  Here it is read with its sums and its
indexes able to trap.

* `manifestParseRun` – `manifest_parse`, its reads as the code makes them.
* `manifestParseRun_eq` – **it does not trap, and is the parser**: every window it takes is inside
  the bytes its length was tested against.
* `manifestParseRun_encode` – **what was written is read back** over anything left behind it, and
  any bytes whatever are read without a trap.
-/

namespace Supdb

open StorageLib Run

/-! ## The reads -/

/-- `from_le_bytes` of the `n` bytes from `pos` on. -/
def wordRun (n : ℕ) (buf : Bytes) (pos : ℕ) : Run String ℕ := do
  let stop ← addU pos n
  let x ← cut buf pos stop
  ok (leNat x)

/-- `get` of a window, an error past the bytes. -/
def getOrTruncated (buf : Bytes) (lo hi : ℕ) : Run String Bytes :=
  Run.okOr "manifest is truncated" (getRange buf lo hi)

/-- The loop over the names. -/
def parseNamesRun (version : ℕ) (body : Bytes) : ℕ → ℕ → Run String (List String × List String)
  | 0, _ => ok ([], [])
  | n + 1, p => do
      let stop ← addU p 2
      let l ← getOrTruncated body p stop
      let p ← addU p 2
      let stop ← addU p (leNat l)
      let raw ← getOrTruncated body p stop
      let name ← Run.okOr "manifest name is not utf8" (nameOf raw)
      let p ← addU p (leNat l)
      if 3 ≤ version then
        let flags ← Run.okOr "manifest is truncated" (body[p]?)
        let p ← addU p 1
        let (names, pending) ← parseNamesRun version body n p
        ok (name :: names, if flags &&& MANIFEST_PENDING ≠ 0 then name :: pending else pending)
      else
        let (names, pending) ← parseNamesRun version body n p
        ok (name :: names, pending)

/-- What is behind the magic, the length and the checksum at `pos`. -/
def parseBodyRun (buf : Bytes) (version seq pos : ℕ) : Run String Manifest := do
  let len ← wordRun 4 buf pos
  let crcAt ← addU pos 4
  let crc ← wordRun 4 buf crcAt
  let lo ← addU pos 8
  let hi ← addU lo len
  let body ← getOrTruncated buf lo hi
  let want := if pos = 17 then crc32Resume (crc32 (leBytes 8 seq)) body else crc32 body
  if want.toNat ≠ crc then err "manifest failed its checksum"
  else if body.length < 12 then err "manifest is truncated"
  else
    let covered ← cut body 0 8
    let n ← cut body 8 12
    let (names, pending) ← parseNamesRun version body (leNat n) 12
    ok ⟨version, seq, leNat covered, names, pending⟩

/-- Whether the slot is long enough for a header and begins with the magic; the magic is read behind
the length. -/
def hasMagic (buf : Bytes) (least : ℕ) (magic : Bytes) : Run String Bool :=
  if least ≤ buf.length then do
    let x ← cut buf 0 9
    ok (decide (x = magic))
  else ok false

/-- `manifest_parse`; the room it sets aside for the count of names it reads is taken to be had. -/
def manifestParseRun (buf : Bytes) : Run String Manifest := do
  let isThree ← hasMagic buf 25 MANIFEST_MAGIC
  if isThree then
    let seq ← cut buf 9 17
    parseBodyRun buf 3 (leNat seq) 17
  else
    let isTwo ← hasMagic buf 25 MANIFEST_MAGIC_V2
    if isTwo then
      let seq ← cut buf 9 17
      parseBodyRun buf 2 (leNat seq) 17
    else
      let isOne ← hasMagic buf 17 MANIFEST_MAGIC_V1
      if isOne then parseBodyRun buf 1 0 9 else err "manifest magic is wrong"

/-! ## No read traps -/

section Safe

variable {buf body : Bytes} {version seq pos n p : ℕ}

lemma wordRun_eq (h : pos + n ≤ buf.length) (hsmall : pos + n < 2 ^ 64) :
    wordRun n buf pos = ok (leNat (slice buf pos (pos + n))) := by
  rw [wordRun, addU_eq hsmall, ok_bind, cut_eq (Nat.le_add_right _ _) h, ok_bind]

lemma okOr_eq_ofExcept {α : Type} (e : String) (x : Option α) :
    Run.okOr e x = ofExcept (okOrElse e x) := by
  cases x with
  | none => rfl
  | some a => rfl

lemma getOrTruncated_eq (lo hi : ℕ) :
    getOrTruncated buf lo hi = ofExcept (orTruncated (getRange buf lo hi)) :=
  okOr_eq_ofExcept _ _

/-- A window that is there is inside the bytes, and not longer than they are. -/
lemma of_orTruncated {lo hi : ℕ} {x : Bytes} (h : orTruncated (getRange buf lo hi) = .ok x) :
    lo ≤ hi ∧ hi ≤ buf.length ∧ x.length = hi - lo := by
  rw [orTruncated] at h
  cases hx : getRange buf lo hi with
  | none =>
      rw [hx] at h
      exact absurd h (by simp [okOrElse])
  | some y =>
      rw [hx, okOrElse, Except.ok.injEq] at h
      obtain ⟨hle, hin, rfl⟩ := getRange_eq_some.mp hx
      subst h
      exact ⟨hle, hin, length_slice_of_le hin⟩

/-- The flag behind a name is in the body, where it is read. -/
lemma lt_of_flag {flags : UInt8} (h : orTruncated (body[p]?) = .ok flags) : p < body.length := by
  rw [orTruncated] at h
  cases hx : body[p]? with
  | none =>
      rw [hx] at h
      exact absurd h (by simp [okOrElse])
  | some y => exact (List.getElem?_eq_some_iff.mp hx).1

/-- **The names are read without a trap**, from any place of a body whose length is a word of the
file. -/
lemma parseNamesRun_eq (hbody : body.length < 2 ^ 32) (hp : p ≤ body.length) :
    parseNamesRun version body n p = ofExcept (parseNames version body n p) := by
  induction n generalizing p with
  | zero => rfl
  | succ n ih =>
      rw [parseNamesRun, parseNames, addU_eq (by omega), ok_bind, getOrTruncated_eq, readWord]
      have hmap : orTruncated ((getRange body p (p + 2)).map leNat)
          = orTruncated (getRange body p (p + 2)) >>= fun x => .ok (leNat x) := by
        cases getRange body p (p + 2) with
        | none => rfl
        | some x => rfl
      rw [hmap, bind_assoc]
      refine ofExcept_bind_eq (fun x hx => ?_)
      obtain ⟨-, hin, hlen⟩ := of_orTruncated hx
      have hword : leNat x < 2 ^ 16 := by
        have hlt := leNat_lt x
        rw [hlen, show p + 2 - p = 2 by omega] at hlt
        exact hlt
      have hstop : p + 2 + leNat x < 2 ^ 64 := by omega
      rw [ok_bind, addU_eq hstop, ok_bind, getOrTruncated_eq]
      change _ = ofExcept (orTruncated (getRange body (p + 2) (p + 2 + leNat x)) >>= _)
      refine ofExcept_bind_eq (fun raw hraw => ?_)
      obtain ⟨-, hend, -⟩ := of_orTruncated hraw
      rw [okOr_eq_ofExcept]
      refine ofExcept_bind_eq (fun name _ => ?_)
      rw [ok_bind]
      by_cases hv : 3 ≤ version
      · rw [if_pos hv, if_pos hv, okOr_eq_ofExcept]
        refine ofExcept_bind_eq (fun flags hflags => ?_)
        have hlt : p + 2 + leNat x < body.length := lt_of_flag hflags
        rw [addU_eq (by omega), ok_bind, ih hlt]
        exact ofExcept_bind_eq (fun names _ => rfl)
      · rw [if_neg hv, if_neg hv, ih hend]
        exact ofExcept_bind_eq (fun names _ => rfl)

/-- **What is behind the magic** is read without a trap. -/
lemma parseBodyRun_eq (hpos : pos ≤ 17) (hlen : pos + 8 ≤ buf.length) :
    parseBodyRun buf version seq pos = ofExcept (parseBody buf version seq pos) := by
  have hword := u32At_lt buf pos
  have hcrc : wordRun 4 buf (pos + 4) = ok (u32At buf (pos + 4)) := wordRun_eq (by omega) (by omega)
  have hlenAt : wordRun 4 buf pos = ok (u32At buf pos) := wordRun_eq (by omega) (by omega)
  rw [parseBodyRun, parseBody, hlenAt, ok_bind, addU_eq (by omega), ok_bind, hcrc, ok_bind,
    addU_eq (by omega), ok_bind, addU_eq (by omega), ok_bind, getOrTruncated_eq]
  refine ofExcept_bind_eq (fun body hbody => ?_)
  obtain ⟨-, -, hsize⟩ := of_orTruncated hbody
  dsimp only
  generalize (if pos = 17 then crc32Resume (crc32 (leBytes 8 seq)) body else crc32 body) = want
  split_ifs with hsum hshort
  · rfl
  · rfl
  · rw [cut_eq (by omega) (by omega), ok_bind, cut_eq (by omega) (by omega), ok_bind,
      parseNamesRun_eq (by omega) (by omega)]
    exact ofExcept_bind_eq (fun names _ => rfl)

lemma hasMagic_eq {least : ℕ} {magic : Bytes} (hleast : 9 ≤ least) :
    hasMagic buf least magic = ok (decide (least ≤ buf.length ∧ buf.take 9 = magic)) := by
  rw [hasMagic]
  by_cases h : least ≤ buf.length
  · rw [if_pos h, cut_eq (Nat.zero_le _) (by omega), ok_bind, slice, List.drop_zero]
    simp [h]
  · rw [if_neg h]
    simp [h]

/-- **`manifest_parse` does not trap**, and is the parser. -/
lemma manifestParseRun_eq (buf : Bytes) : manifestParseRun buf = ofExcept (manifestParse buf) := by
  rw [manifestParseRun, manifestParse, hasMagic_eq (by norm_num), ok_bind]
  by_cases h3 : 25 ≤ buf.length ∧ buf.take 9 = MANIFEST_MAGIC
  · rw [if_pos (decide_eq_true h3), if_pos h3, cut_eq (by omega) (by omega), ok_bind]
    exact parseBodyRun_eq (le_refl _) (by omega)
  · rw [if_neg (by simpa using h3), if_neg h3, hasMagic_eq (by norm_num), ok_bind]
    by_cases h2 : 25 ≤ buf.length ∧ buf.take 9 = MANIFEST_MAGIC_V2
    · rw [if_pos (decide_eq_true h2), if_pos h2, cut_eq (by omega) (by omega), ok_bind]
      exact parseBodyRun_eq (le_refl _) (by omega)
    · rw [if_neg (by simpa using h2), if_neg h2, hasMagic_eq (by norm_num), ok_bind]
      by_cases h1 : 17 ≤ buf.length ∧ buf.take 9 = MANIFEST_MAGIC_V1
      · rw [if_pos (decide_eq_true h1), if_pos h1]
        exact parseBodyRun_eq (by norm_num) (by omega)
      · rw [if_neg (by simpa using h1), if_neg h1]
        rfl

end Safe

/-! ## The round trip -/

/-- **A manifest is read back**, whatever stands behind it, and any bytes are read without a trap.
-/
theorem manifestParseRun_encode :
    (∀ (seq covered : ℕ) (names pending : List String) (rest : Bytes), seq < 2 ^ 64 →
      covered < 2 ^ 64 → names.length < 2 ^ 32 → (∀ n ∈ names, (nameBytes n).length ≤ 65535) →
      (manifestBody covered names pending).length < 2 ^ 32 →
        manifestParseRun (manifestEncode seq covered names pending ++ rest)
          = ok ⟨3, seq, covered, names, names.filter (· ∈ pending)⟩) ∧
      ∀ buf : Bytes, (manifestParseRun buf).Safe := by
  refine ⟨fun seq covered names pending rest hseq hcovered hnames hname hbody => ?_, fun buf => ?_⟩
  · have hfits : ManifestFits seq covered names pending :=
      ⟨hseq, hcovered, hbody, fun n hn => Nat.lt_succ_of_le (hname n hn), hnames⟩
    rw [manifestParseRun_eq, manifestParse_encode hfits rest]
    rfl
  · rw [manifestParseRun_eq]
    exact ofExcept_safe _

/-- Two names, one of them pending beside a name that is not listed, over what a longer manifest
left. -/
theorem manifestParseRun_encode_two :
    manifestParseRun (manifestEncode 7 3 ["a", "bé"] ["bé", "c"] ++ [1, 2, 3])
        = ok ⟨3, 7, 3, ["a", "bé"], ["a", "bé"].filter (· ∈ ["bé", "c"])⟩ ∧ (manifestParseRun [83, 85]).Safe :=
  ⟨manifestParseRun_encode.1 7 3 ["a", "bé"] ["bé", "c"] [1, 2, 3] (by norm_num) (by norm_num) (by decide)
    (by decide +kernel) (by decide +kernel), manifestParseRun_encode.2 _⟩

end Supdb

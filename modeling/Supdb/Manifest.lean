import Supdb.Crc

/-!
# The manifest

Which segments are the store's, and the log sequence they cover, stand in a **manifest**: a header
with its publish sequence, the body's length and a checksum over both, and the body, the names with
a flag byte each.  Two slot files hold one each; a slot is written in place and never cut, so what a
longer manifest left stands behind a shorter one.

* `manifestEncode`, `manifestParse` – one manifest's bytes, and back; `manifestParse_encode` is the
  round trip, over any bytes left behind.
* `manifestReadAll` – what both slots hold, newest first; `manifestReadAll_pair` says which is
  first.
-/

namespace Supdb

open StorageLib

/-! ## The format -/

def MANIFEST_MAGIC : Bytes := [83, 85, 80, 68, 66, 77, 65, 78, 3]

def MANIFEST_MAGIC_V2 : Bytes := [83, 85, 80, 68, 66, 77, 65, 78, 2]

def MANIFEST_MAGIC_V1 : Bytes := [83, 85, 80, 68, 66, 77, 65, 78, 1]

/-- The flag of a name published at its seal's readable landing. -/
def MANIFEST_PENDING : UInt8 := 1

/-- What a manifest names: its publish sequence, the log sequence it covers, the live segments and
those of them that may not be durable yet. -/
structure Manifest where
  version : ℕ
  seq : ℕ
  covered : ℕ
  names : List String
  pending : List String
  deriving DecidableEq

/-- A name's bytes. -/
def nameBytes (name : String) : Bytes := name.toUTF8.data.toList

/-- `String::from_utf8`. -/
def nameOf (raw : Bytes) : Option String := String.fromUTF8? ⟨raw.toArray⟩

/-- A name in the body: its length, its bytes and its flags. -/
def nameRec (pending : List String) (name : String) : Bytes :=
  leBytes 2 (nameBytes name).length ++ (nameBytes name ++
    [if name ∈ pending then MANIFEST_PENDING else 0])

/-- A manifest's body. -/
def manifestBody (covered : ℕ) (names pending : List String) : Bytes :=
  leBytes 8 covered ++ (leBytes 4 names.length ++ names.flatMap (nameRec pending))

/-- `manifest_encode`. -/
def manifestEncode (seq covered : ℕ) (names pending : List String) : Bytes :=
  let body := manifestBody covered names pending
  let crc := crc32Resume (crc32 (leBytes 8 seq)) body
  MANIFEST_MAGIC ++ (leBytes 8 seq ++ (leBytes 4 body.length ++ (leBytes 4 crc.toNat ++ body)))

/-- `ok_or_else`. -/
def okOrElse {α : Type} (e : String) : Option α → Except String α
  | some x => .ok x
  | none => .error e

/-- What a read past the bytes gives. -/
def orTruncated {α : Type} (x : Option α) : Except String α := okOrElse "manifest is truncated" x

/-- `manifest_parse`'s loop over the names: those from offset `p` on, and the ones flagged. -/
def parseNames (version : ℕ) (body : Bytes) : ℕ → ℕ → Except String (List String × List String)
  | 0, _ => .ok ([], [])
  | n + 1, p => do
      let l ← orTruncated (readWord 2 body p)
      let raw ← orTruncated (getRange body (p + 2) (p + 2 + l))
      let name ← okOrElse "manifest name is not utf8" (nameOf raw)
      if 3 ≤ version then
        let flags ← orTruncated (body[p + 2 + l]?)
        let (names, pending) ← parseNames version body n (p + 2 + l + 1)
        .ok (name :: names, if flags &&& MANIFEST_PENDING ≠ 0 then name :: pending else pending)
      else
        let (names, pending) ← parseNames version body n (p + 2 + l)
        .ok (name :: names, pending)

/-- `manifest_parse` behind the magic: the length and the checksum stand at `pos`. -/
def parseBody (buf : Bytes) (version seq pos : ℕ) : Except String Manifest := do
  let len := u32At buf pos
  let crc := u32At buf (pos + 4)
  let body ← orTruncated (getRange buf (pos + 8) (pos + 8 + len))
  let want := if pos = 17 then crc32Resume (crc32 (leBytes 8 seq)) body else crc32 body
  if want.toNat ≠ crc then .error "manifest failed its checksum"
  else if body.length < 12 then .error "manifest is truncated"
  else
    let (names, pending) ← parseNames version body (u32At body 8) 12
    .ok ⟨version, seq, u64At body 0, names, pending⟩

/-- `manifest_parse`: a manifest of any version. -/
def manifestParse (buf : Bytes) : Except String Manifest :=
  if 25 ≤ buf.length ∧ buf.take 9 = MANIFEST_MAGIC then parseBody buf 3 (u64At buf 9) 17
  else if 25 ≤ buf.length ∧ buf.take 9 = MANIFEST_MAGIC_V2 then parseBody buf 2 (u64At buf 9) 17
  else if 17 ≤ buf.length ∧ buf.take 9 = MANIFEST_MAGIC_V1 then parseBody buf 1 0 9
  else .error "manifest magic is wrong"

/-- What a parse failed with. -/
def tornOf : Except String Manifest → Option String
  | .error e => some e
  | .ok _ => none

/-- `manifest_read_all`, over the slots in order; a slot not there reads as an empty one. -/
def manifestReadAll (slots : List Bytes) : Except String (List Manifest) :=
  let read := (slots.filter (· ≠ [])).map manifestParse
  let valid := read.filterMap Except.toOption
  match valid, (read.filterMap tornOf).getLast? with
  | [], some e => .error e
  | _, _ => .ok (valid.insertionSort (fun m m' => m'.seq ≤ m.seq))

/-! ## Round trip -/

/-- A manifest whose lengths and numbers fit their fields. -/
structure ManifestFits (seq covered : ℕ) (names pending : List String) : Prop where
  seq_lt : seq < 2 ^ 64
  covered_lt : covered < 2 ^ 64
  body_lt : (manifestBody covered names pending).length < 2 ^ 32
  name_lt : ∀ n ∈ names, (nameBytes n).length < 2 ^ 16
  names_lt : names.length < 2 ^ 32

section RoundTrip

lemma nameOf_nameBytes (name : String) : nameOf (nameBytes name) = some name := by
  have hbytes : (⟨(nameBytes name).toArray⟩ : ByteArray) = name.toUTF8 := by
    simp [nameBytes]
  rw [nameOf, hbytes, String.fromUTF8?, String.toUTF8_eq_toByteArray, dif_pos name.isValidUTF8]
  rfl

/-- The names behind `pre` are read back, each flagged as it was written. -/
lemma parseNames_flatMap (pending : List String) (pre : Bytes) (names : List String)
    (hlen : ∀ n ∈ names, (nameBytes n).length < 2 ^ 16) :
    parseNames 3 (pre ++ names.flatMap (nameRec pending)) names.length pre.length
      = .ok (names, names.filter (· ∈ pending)) := by
  induction names generalizing pre with
  | nil => rfl
  | cons n names ih =>
      have hfit : (nameBytes n).length < 256 ^ 2 := hlen n List.mem_cons_self
      set rest := names.flatMap (nameRec pending) with hrest
      set flag : UInt8 := if n ∈ pending then MANIFEST_PENDING else 0 with hflag
      have hbody : pre ++ (n :: names).flatMap (nameRec pending)
          = pre ++ (leBytes 2 (nameBytes n).length ++ (nameBytes n ++ ([flag] ++ rest))) := by
        simp only [List.flatMap_cons, nameRec, List.append_assoc, ← hrest, ← hflag]
      have hword : readWord 2 (pre ++ (n :: names).flatMap (nameRec pending)) pre.length
          = some (nameBytes n).length := by
        rw [hbody]
        exact readWord_append_mid rfl hfit
      have hraw : getRange (pre ++ (n :: names).flatMap (nameRec pending)) (pre.length + 2)
          (pre.length + 2 + (nameBytes n).length) = some (nameBytes n) := by
        rw [hbody, ← List.append_assoc]
        exact getRange_append_mid (by simp) (by simp)
      have hpast : (pre ++ (n :: names).flatMap (nameRec pending))[pre.length + 2
          + (nameBytes n).length]? = some flag := by
        have hlong : (pre ++ (leBytes 2 (nameBytes n).length ++ nameBytes n)).length
            = pre.length + 2 + (nameBytes n).length := by
          simp only [List.length_append, length_leBytes]
          omega
        have hsplit : pre ++ (n :: names).flatMap (nameRec pending)
            = (pre ++ (leBytes 2 (nameBytes n).length ++ nameBytes n)) ++ ([flag] ++ rest) := by
          rw [hbody]
          simp only [List.append_assoc]
        rw [hsplit, List.getElem?_append_right (le_of_eq hlong), hlong, Nat.sub_self]
        rfl
      have hnext : parseNames 3 (pre ++ (n :: names).flatMap (nameRec pending)) names.length
          (pre.length + 2 + (nameBytes n).length + 1) = .ok (names, names.filter (· ∈ pending)) := by
        have hih := ih (pre ++ nameRec pending n) (fun m hm => hlen m (List.mem_cons_of_mem _ hm))
        have hl : (pre ++ nameRec pending n).length
            = pre.length + 2 + (nameBytes n).length + 1 := by
          simp only [nameRec, List.length_append, length_leBytes, List.length_singleton]
          omega
        rwa [List.append_assoc, ← List.flatMap_cons, hl] at hih
      rw [List.length_cons, parseNames]
      simp only [orTruncated, okOrElse, bind, Except.bind, hword, hraw, hpast,
        nameOf_nameBytes, hnext, le_refl, if_true]
      by_cases hmem : n ∈ pending
      · have hne : flag &&& MANIFEST_PENDING ≠ 0 := by
          rw [hflag, if_pos hmem]
          decide
        rw [if_pos hne, List.filter_cons_of_pos (by simpa using hmem)]
      · have heq : ¬ flag &&& MANIFEST_PENDING ≠ 0 := by
          rw [hflag, if_neg hmem]
          decide
        rw [if_neg heq, List.filter_cons_of_neg (by simpa using hmem)]

/-- **A manifest is read back** as it was written, whatever a longer one left behind it. -/
lemma manifestParse_encode {seq covered : ℕ} {names pending : List String}
    (hfits : ManifestFits seq covered names pending) (rest : Bytes) :
    manifestParse (manifestEncode seq covered names pending ++ rest)
      = .ok ⟨3, seq, covered, names, names.filter (· ∈ pending)⟩ := by
  set body := manifestBody covered names pending with hbody
  set crc := crc32Resume (crc32 (leBytes 8 seq)) body with hcrc
  have henc : manifestEncode seq covered names pending ++ rest = MANIFEST_MAGIC ++ (leBytes 8 seq ++
      (leBytes 4 body.length ++ (leBytes 4 crc.toNat ++ (body ++ rest)))) := by
    simp only [manifestEncode, List.append_assoc, ← hbody, ← hcrc]
  have hmagic : (manifestEncode seq covered names pending ++ rest).take 9 = MANIFEST_MAGIC := by
    rw [henc]
    exact List.take_left' rfl
  have hlong : 25 ≤ (manifestEncode seq covered names pending ++ rest).length := by
    rw [henc]
    simp only [List.length_append, length_leBytes, MANIFEST_MAGIC, List.length_cons,
      List.length_nil]
    omega
  have hseq : u64At (manifestEncode seq covered names pending ++ rest) 9 = seq := by
    rw [henc]
    exact u64At_append rfl hfits.seq_lt
  have hlen : u32At (manifestEncode seq covered names pending ++ rest) 17 = body.length := by
    rw [henc, ← List.append_assoc]
    exact u32At_append (by simp [MANIFEST_MAGIC]) hfits.body_lt
  have hsum : u32At (manifestEncode seq covered names pending ++ rest) (17 + 4) = crc.toNat := by
    rw [henc, ← List.append_assoc, ← List.append_assoc]
    exact u32At_append (by simp [MANIFEST_MAGIC]) crc.isLt
  have hrange : getRange (manifestEncode seq covered names pending ++ rest) (17 + 8)
      (17 + 8 + body.length) = some body := by
    rw [henc, ← List.append_assoc, ← List.append_assoc, ← List.append_assoc]
    exact getRange_append_mid (by simp [MANIFEST_MAGIC]) (by simp [MANIFEST_MAGIC])
  have h12 : ¬ body.length < 12 := by
    simp only [hbody, manifestBody, List.length_append, length_leBytes]
    omega
  have hcount : u32At body 8 = names.length := u32At_append (by simp) hfits.names_lt
  have hcovered : u64At body 0 = covered := by
    have hs : body = [] ++ (leBytes 8 covered
        ++ (leBytes 4 names.length ++ names.flatMap (nameRec pending))) := by
      rw [List.nil_append, hbody, manifestBody]
    rw [hs]
    exact u64At_append rfl hfits.covered_lt
  have hnames : parseNames 3 body names.length 12 = .ok (names, names.filter (· ∈ pending)) := by
    have h := parseNames_flatMap pending (leBytes 8 covered ++ leBytes 4 names.length) names
      hfits.name_lt
    rwa [List.append_assoc, List.length_append, length_leBytes, length_leBytes] at h
  rw [manifestParse, if_pos ⟨hlong, hmagic⟩, parseBody, hseq, hlen, hsum, hrange]
  simp only [orTruncated, okOrElse, bind, Except.bind, if_true, ← hcrc, ne_eq, not_true_eq_false,
    if_false, if_neg h12, hcount, hnames, hcovered]

end RoundTrip

/-! ## Which is newest -/

/-- The manifest a slot's bytes hold, where they hold one. -/
def standing (slot : Bytes) : Option Manifest := (manifestParse slot).toOption

/-- The newer of two slots' manifests; the first slot's, of two of one sequence. -/
def newestOf : Option Manifest → Option Manifest → Option Manifest
  | some m, some m' => if m'.seq ≤ m.seq then some m else some m'
  | some m, none => some m
  | none, m' => m'

/-- The other of two. -/
def olderOf : Option Manifest → Option Manifest → Option Manifest
  | some m, some m' => if m'.seq ≤ m.seq then some m' else some m
  | _, _ => none

section Newest

@[simp] lemma standing_nil : standing [] = none := rfl

lemma standing_encode {seq covered : ℕ} {names pending : List String}
    (hfits : ManifestFits seq covered names pending) (rest : Bytes) :
    standing (manifestEncode seq covered names pending ++ rest)
      = some ⟨3, seq, covered, names, names.filter (· ∈ pending)⟩ := by
  rw [standing, manifestParse_encode hfits rest]
  rfl

/-- The manifests the slots hold, in the slots' order. -/
lemma valid_eq (slots : List Bytes) :
    ((slots.filter (· ≠ [])).map manifestParse).filterMap Except.toOption
      = slots.filterMap standing := by
  induction slots with
  | nil => rfl
  | cons b slots ih =>
      by_cases hb : b = []
      · rw [List.filter_cons_of_neg (by simpa using hb), ih, hb,
          List.filterMap_cons_none standing_nil]
      · rw [List.filter_cons_of_pos (by simpa using hb), List.map_cons]
        cases hs : standing b with
        | none =>
            rw [List.filterMap_cons_none hs, List.filterMap_cons_none (f := Except.toOption) hs, ih]
        | some m =>
            rw [List.filterMap_cons_some hs, List.filterMap_cons_some (f := Except.toOption) hs, ih]

/-- Slots that hold a manifest between them are read, newest first. -/
lemma manifestReadAll_of_valid {slots : List Bytes} (h : slots.filterMap standing ≠ []) :
    manifestReadAll slots
      = .ok ((slots.filterMap standing).insertionSort (fun m m' => m'.seq ≤ m.seq)) := by
  rw [manifestReadAll]
  simp only [valid_eq]
  split
  · exact absurd ‹_› h
  · rfl

/-- **What two slots read as**: the newer manifest of the two, then the other. -/
lemma manifestReadAll_pair {a b : Bytes} {m : Manifest}
    (h : newestOf (standing a) (standing b) = some m) :
    manifestReadAll [a, b] = .ok (m :: (olderOf (standing a) (standing b)).toList) := by
  cases ha : standing a with
  | none =>
      cases hb : standing b with
      | none => simp [ha, hb, newestOf] at h
      | some y =>
          have hv : [a, b].filterMap standing = [y] := by simp [ha, hb]
          rw [ha, hb] at h
          rw [manifestReadAll_of_valid (by rw [hv]; simp), hv, ← Option.some.inj h]
          rfl
  | some x =>
      cases hb : standing b with
      | none =>
          have hv : [a, b].filterMap standing = [x] := by simp [ha, hb]
          rw [ha, hb] at h
          rw [manifestReadAll_of_valid (by rw [hv]; simp), hv, ← Option.some.inj h]
          rfl
      | some y =>
          have hv : [a, b].filterMap standing = [x, y] := by simp [ha, hb]
          rw [ha, hb] at h
          rw [manifestReadAll_of_valid (by rw [hv]; simp), hv]
          simp only [newestOf] at h
          simp only [List.insertionSort, List.foldr, List.orderedInsert, olderOf]
          split_ifs at h ⊢ <;> simp_all

/-- Two slots with no manifest between them read as none, or not at all. -/
lemma manifestReadAll_none {a b : Bytes} {ms : List Manifest} (ha : standing a = none)
    (hb : standing b = none) (h : manifestReadAll [a, b] = .ok ms) : ms = [] := by
  have hv : [a, b].filterMap standing = [] := by simp [ha, hb]
  rw [manifestReadAll] at h
  simp only [valid_eq, hv] at h
  split at h
  · exact absurd h (by simp)
  · exact (Except.ok.inj h).symm

end Newest

end Supdb

import Supdb.PageFormat

/-!
# What `encode_page` writes

A page is its checksum, its header, the directory, the keys and the payloads, one after the other.
The encoder writes them into zeros at positions it works out first; what it leaves is the same
bytes.

* `dirBytes`, `keyBytes`, `bodyBytes` – the three regions behind the header, for a list of groups.
* `pageBytes` – the whole page.
* `PageOk` – what a list of groups has to be to have a page, and the page's header.
* **`encodePage_iff`** – `encode_page` accepts exactly these, and writes exactly that page.
-/

namespace Supdb

open StorageLib

/-! ## The regions -/

/-- The directory of groups, the first record's index `first` and the bytes before their payloads
ending at `pos`. -/
def dirBytes : ℕ → ℕ → List PageGroup → Bytes
  | _, _, [] => []
  | first, pos, g :: gs =>
      leBytes 2 first ++ leBytes 2 (alignUp pos 4) ++ leBytes 2 g.payload.length ++
        leBytes 2 g.ulen4 ++ dirBytes (first + g.count) (alignUp pos 4 + g.payload.length) gs

/-- A key with its length before it. -/
def keyEntry (g : PageGroup) : Bytes := leBytes 2 g.key.length ++ g.key

/-- The keys of groups. -/
def keyBytes (gs : List PageGroup) : Bytes := gs.flatMap keyEntry

/-- The payloads of groups behind `pos`, with the zeros between and behind them. -/
def bodyBytes : ℕ → List PageGroup → Bytes
  | pos, [] => List.replicate (ZPAGE - pos) 0
  | pos, g :: gs =>
      List.replicate (alignUp pos 4 - pos) 0 ++ g.payload ++ bodyBytes (alignUp pos 4 + g.payload.length) gs

/-- Where the payloads of groups behind `pos` end. -/
def bodyEnd : ℕ → List PageGroup → ℕ
  | pos, [] => pos
  | pos, g :: gs => bodyEnd (alignUp pos 4 + g.payload.length) gs

/-- Where each payload begins. -/
def coffsFrom : ℕ → List PageGroup → List ℕ
  | _, [] => []
  | pos, g :: gs => alignUp pos 4 :: coffsFrom (alignUp pos 4 + g.payload.length) gs

/-- The records of groups. -/
def recordsIn (gs : List PageGroup) : ℕ := (gs.map PageGroup.count).sum

/-- The decoded bytes of groups. -/
def ulenOf (gs : List PageGroup) : ℕ := (gs.map PageGroup.ulen).sum

/-- The stored bits of groups, the first of them group `j`. -/
def storedOf : ℕ → List PageGroup → ℕ
  | _, [] => 0
  | j, g :: gs => (g.stored.toNat <<< j) ||| storedOf (j + 1) gs

/-- Where the keys of a page's groups end. -/
def keysEnd (gs : List PageGroup) : ℕ :=
  ZHDR + ZDIR_ENTRY * gs.length + (keyBytes (gs.drop 1)).length

/-- The header of a page of groups. -/
def headerOf (firstRank : BitVec 32) (gs : List PageGroup) : PageHeader :=
  ⟨firstRank.toNat, recordsIn gs, storedOf 0 gs, ulenOf gs, bodyEnd (keysEnd gs) gs - ZHDR,
    gs.length⟩

/-- A header's fields. -/
def headBytes (h : PageHeader) : Bytes :=
  leBytes 4 ZTAG ++ leBytes 4 h.firstRank ++ leBytes 2 h.count ++ leBytes 2 h.stored ++
    leBytes 4 h.ulen ++ leBytes 2 h.used ++ leBytes 1 h.groups ++ [0]

/-- A page behind its checksum. -/
def restBytes (h : PageHeader) (gs : List PageGroup) : Bytes :=
  headBytes h ++ dirBytes 0 (keysEnd gs) gs ++ keyBytes (gs.drop 1) ++ bodyBytes (keysEnd gs) gs

/-- A page. -/
def pageBytes (h : PageHeader) (gs : List PageGroup) (bind32 : BitVec 32) : Bytes :=
  leBytes 4 (crc32 (restBytes h gs) ^^^ bind32).toNat ++ restBytes h gs

/-- Every group is one a page may carry, `prev` the key before the first. -/
def GroupsOk : Option Bytes → List PageGroup → Prop
  | _, [] => True
  | prev, g :: gs => g.check prev = .ok () ∧ GroupsOk (some g.key) gs

/-- What a list of groups has to be to have a page. -/
structure PageOk (gs : List PageGroup) : Prop where
  ne : gs ≠ []
  most : gs.length ≤ ZMAX_GROUPS
  groups : GroupsOk none gs
  count : recordsIn gs ≤ ZMAX_COUNT
  fits : bodyEnd (keysEnd gs) gs ≤ ZPAGE

/-! ## Lengths -/

section Lengths

lemma length_dirBytes (gs : List PageGroup) : ∀ first pos, (dirBytes first pos gs).length
    = ZDIR_ENTRY * gs.length := by
  induction gs with
  | nil => intro first pos; rfl
  | cons g gs ih =>
      intro first pos
      rw [dirBytes]
      simp only [List.length_append, length_leBytes, ih, List.length_cons, ZDIR_ENTRY]
      omega

lemma length_headBytes (h : PageHeader) : (headBytes h).length = 20 := by
  simp [headBytes]

lemma le_bodyEnd (gs : List PageGroup) : ∀ pos, pos ≤ bodyEnd pos gs := by
  induction gs with
  | nil => intro pos; exact le_refl pos
  | cons g gs ih =>
      intro pos
      have h1 := le_alignUp pos (show 0 < 4 by omega)
      have h2 := ih (alignUp pos 4 + g.payload.length)
      rw [bodyEnd]
      omega

lemma length_bodyBytes (gs : List PageGroup) :
    ∀ {pos}, bodyEnd pos gs ≤ ZPAGE → (bodyBytes pos gs).length = ZPAGE - pos := by
  induction gs with
  | nil => intro pos _; exact List.length_replicate
  | cons g gs ih =>
      intro pos h
      have h1 := le_alignUp pos (show 0 < 4 by omega)
      have h2 := le_bodyEnd gs (alignUp pos 4 + g.payload.length)
      rw [bodyEnd] at h
      rw [bodyBytes, List.length_append, List.length_append, List.length_replicate, ih h]
      omega

lemma length_restBytes {gs : List PageGroup} (h : PageHeader)
    (hfit : bodyEnd (keysEnd gs) gs ≤ ZPAGE) : (restBytes h gs).length = ZPAGE - 4 := by
  have hle := le_bodyEnd gs (keysEnd gs)
  rw [restBytes, List.length_append, List.length_append, List.length_append, length_headBytes,
    length_dirBytes, length_bodyBytes gs hfit]
  rw [keysEnd, ZHDR, ZDIR_ENTRY, ZPAGE] at *
  omega

lemma length_pageBytes {gs : List PageGroup} (h : PageHeader) (bind32 : BitVec 32)
    (hfit : bodyEnd (keysEnd gs) gs ≤ ZPAGE) : (pageBytes h gs bind32).length = ZPAGE := by
  rw [pageBytes, List.length_append, length_leBytes, length_restBytes h hfit, ZPAGE]

end Lengths

/-! ## The sums -/

lemma sumGroups_ok (gs : List PageGroup) :
    ∀ {j : ℕ} {prev : Option Bytes} {s s' : ℕ × ℕ × ℕ},
      sumGroups gs j prev s = .ok s'
        ↔ GroupsOk prev gs ∧ s' = (s.1 + recordsIn gs, s.2.1 + ulenOf gs, s.2.2 ||| storedOf j gs) := by
  induction gs with
  | nil =>
      intro j prev s s'
      simp [sumGroups, GroupsOk, recordsIn, ulenOf, storedOf, eq_comm]
  | cons g gs ih =>
      intro j prev s s'
      obtain ⟨c, u, m⟩ := s
      rw [sumGroups, except_bind_eq_ok]
      simp only [ih, GroupsOk, recordsIn, ulenOf, storedOf, List.map_cons, List.sum_cons, Nat.add_assoc, Nat.or_assoc]
      constructor
      · rintro ⟨_, hc, hg, hs⟩
        exact ⟨⟨hc, hg⟩, hs⟩
      · rintro ⟨⟨hc, hg⟩, hs⟩
        exact ⟨(), hc, hg, hs⟩

lemma storedOf_testBit (gs : List PageGroup) :
    ∀ (j i : ℕ), (storedOf j gs).testBit i
    = (decide (j ≤ i) && ((gs[i - j]?).map PageGroup.stored).getD false) := by
  induction gs with
  | nil => intro j i; simp [storedOf]
  | cons g gs ih =>
      intro j i
      rw [storedOf, Nat.testBit_or, Nat.testBit_shiftLeft, ih]
      rcases Nat.lt_trichotomy i j with h | rfl | h
      · simp [show ¬j ≤ i by omega, show ¬j + 1 ≤ i by omega]
      · cases hs : g.stored with
        | false => simp [hs]
        | true => simp [hs]
      · have hz : g.stored.toNat.testBit (i - j) = false := by
          apply Nat.testBit_lt_two_pow
          have h2 : 2 ≤ 2 ^ (i - j) := by
            calc 2 = 2 ^ 1 := rfl
              _ ≤ 2 ^ (i - j) := Nat.pow_le_pow_right (by omega) (by omega)
          have := Bool.toNat_lt g.stored
          omega
        obtain ⟨k, hk⟩ : ∃ k, i - j = k + 1 := ⟨i - j - 1, by omega⟩
        simp [show j ≤ i by omega, show j + 1 ≤ i by omega, hk, show i - (j + 1) = k by omega]
        intro hb
        rw [hk] at hz
        simp [hz] at hb

lemma storedOf_lt (gs : List PageGroup) : storedOf 0 gs < 2 ^ gs.length := by
  apply Nat.lt_pow_two_of_testBit
  intro i hi
  rw [storedOf_testBit, Nat.sub_zero, List.getElem?_eq_none hi]
  simp

/-- A page's header is one a page may carry. -/
lemma PageOk.check {gs : List PageGroup} (h : PageOk gs) (firstRank : BitVec 32) :
    (headerOf firstRank gs).check = .ok () := by
  have hcheck : ∀ (gs : List PageGroup) (prev : Option Bytes), GroupsOk prev gs → gs ≠ [] →
      0 < recordsIn gs ∧ 0 < ulenOf gs ∧ 4 ∣ ulenOf gs := by
    intro gs
    induction gs with
    | nil => intro prev _ hne; exact absurd rfl hne
    | cons g gs ih =>
        intro prev hok _
        obtain ⟨hg, hrest⟩ := hok
        have hone : 0 < g.count ∧ 0 < g.ulen ∧ 4 ∣ g.ulen := by
          unfold PageGroup.check at hg
          split at hg
          · simp at hg
          split at hg
          · simp at hg
          · omega
        rw [recordsIn, ulenOf, List.map_cons, List.sum_cons, List.map_cons, List.sum_cons]
        rcases List.eq_nil_or_concat gs with rfl | ⟨_, _, hcons⟩
        · simp only [List.map_nil, List.sum_nil, Nat.add_zero]
          exact hone
        · have hr := ih (some g.key) hrest (by rw [hcons]; simp)
          rw [recordsIn, ulenOf] at hr
          exact ⟨by omega, by omega, hone.2.2.add hr.2.2⟩
  obtain ⟨hc, hu, hd⟩ := hcheck gs none h.groups h.ne
  have hlen : 0 < gs.length := List.length_pos_iff.mpr h.ne
  have hmost := h.most
  have hfits := h.fits
  have hle := le_bodyEnd gs (keysEnd gs)
  have hstored : storedOf 0 gs >>> gs.length = 0 := by
    rw [Nat.shiftRight_eq_div_pow]
    exact Nat.div_eq_of_lt (storedOf_lt gs)
  have hcount := h.count
  have hk : keysEnd gs = ZHDR + ZDIR_ENTRY * gs.length + (keyBytes (gs.drop 1)).length := rfl
  rw [PageHeader.check, headerOf]
  simp only
  rw [if_neg (by omega), if_neg (by omega), if_neg (by simp [hstored]), if_neg (by omega),
    if_neg ?_]
  rw [ZCAP]
  rw [ZHDR, ZDIR_ENTRY, ZPAGE] at *
  omega

/-! ## The layout -/

lemma layoutFrom_eq (gs : List PageGroup) :
    ∀ (pos last : ℕ), gs ≠ [] → layoutFrom (alignUp pos 4) last (gs.map (fun g => g.payload.length))
      = (coffsFrom pos gs, bodyEnd pos gs) := by
  induction gs with
  | nil => intro pos last hne; exact absurd rfl hne
  | cons g gs ih =>
      intro pos last _
      rw [List.map_cons, layoutFrom, coffsFrom, bodyEnd]
      rcases eq_or_ne gs [] with rfl | hne
      · simp [layoutFrom, coffsFrom, bodyEnd]
      · rw [ih _ _ hne]

lemma length_keyBytes (gs : List PageGroup) :
    (keyBytes gs).length = (gs.map (fun g => 2 + g.key.length)).sum := by
  rw [keyBytes, List.length_flatMap]
  congr 1
  apply List.map_congr_left
  intro g _
  rw [keyEntry, List.length_append, length_leBytes]

/-- **The layout** is where the payloads lie. -/
lemma pageLayout_eq {gs : List PageGroup} (hne : gs ≠ []) (hmost : gs.length ≤ ZMAX_GROUPS) :
    pageLayout
      (gs.zipIdx.map (fun g => (g.1.payload.length, if g.2 = 0 then 0 else g.1.key.length)))
      = if ZPAGE < alignUp (keysEnd gs) 4 then none
        else some (coffsFrom (keysEnd gs) gs, bodyEnd (keysEnd gs) gs - ZHDR) := by
  have hfst :
      (gs.zipIdx.map (fun g => (g.1.payload.length, if g.2 = 0 then 0 else g.1.key.length))).map
      Prod.fst = gs.map (fun g => g.payload.length) := by
    rw [List.map_map]
    conv_rhs => rw [← List.zipIdx_map_fst 0 gs, List.map_map]
    rfl
  have hkeys :
      (((gs.zipIdx.map (fun g => (g.1.payload.length, if g.2 = 0 then 0 else g.1.key.length))).drop
      1).map (fun g => 2 + g.2)).sum = (keyBytes (gs.drop 1)).length := by
    rw [length_keyBytes]
    obtain ⟨g, rest, rfl⟩ := List.exists_cons_of_ne_nil hne
    rw [List.zipIdx_cons, List.map_cons, List.drop_one, List.tail_cons, List.drop_one,
      List.tail_cons, List.map_map]
    congr 1
    conv_rhs => rw [← List.zipIdx_map_fst 1 rest, List.map_map]
    apply List.map_congr_left
    intro x hx
    have hpos := List.le_snd_of_mem_zipIdx hx
    simp only [Function.comp_apply]
    rw [Nat.zero_add] at hpos
    rw [if_neg (by omega)]
  rw [pageLayout, if_neg]
  · simp only
    rw [hkeys, hfst, List.length_map, List.length_zipIdx, ← keysEnd, layoutFrom_eq gs _ _ hne]
  · rw [List.length_map, List.length_zipIdx, not_or]
    refine ⟨?_, by omega⟩
    intro hc
    rw [List.map_eq_nil_iff, List.zipIdx_eq_nil_iff] at hc
    exact hne hc

/-! ## The writes -/

/-- The header's fields are written one behind the other. -/
lemma writeHeader_eq (h : PageHeader) :
    writeHeader h = List.replicate 4 0 ++
    (headBytes h ++ (List.replicate (ZPAGE - ZHDR) 0 ++ [])) := by
  set page : Bytes := List.replicate ZPAGE 0 with hpage
  have hlen : page.length = 4096 := by rw [hpage, List.length_replicate, ZPAGE]
  rw [writeHeader, ← hpage, P_TAG, P_FIRST, P_COUNT, P_STORED, P_ULEN, P_USED, P_GROUPS, P_ZERO]
  have hone : writeAt (writeAt (writeAt (writeAt (writeAt (writeAt (writeAt (writeAt page 4 (leBytes 4 ZTAG)) 8
      (leBytes 4 h.firstRank)) 12 (leBytes 2 h.count)) 14 (leBytes 2 h.stored)) 16 (leBytes 4 h.ulen)) 20
      (leBytes 2 h.used)) 22 (leBytes 1 h.groups)) 23 [0] = writeAt page 4 (headBytes h) := by
    have step : ∀ (x y : Bytes) (m : ℕ), m = 4 + x.length → 4 + x.length + y.length ≤ 4096 →
        writeAt (writeAt page 4 x) m y = writeAt page 4 (x ++ y) := by
      rintro x y m rfl hfit
      exact writeAt_writeAt _ _ (by rw [hlen]; exact hfit)
    rw [headBytes, step _ _ 8 (by simp) (by simp), step _ _ 12 (by simp) (by simp),
      step _ _ 14 (by simp) (by simp), step _ _ 16 (by simp) (by simp), step _ _ 20 (by simp)
      (by simp), step _ _ 22 (by simp) (by simp), step _ _ 23 (by simp) (by simp)]
  rw [hone, writeAt_zeros (List.replicate 4 0) (ZPAGE - 4) []]
  · rw [length_headBytes, ZPAGE, ZHDR]
  · rw [hpage, List.append_nil, List.replicate_append_replicate, ZPAGE]
  · rw [List.length_replicate]
  · rw [length_headBytes, ZPAGE]
    omega

/-- The keys that are written of groups from `j` on. -/
def keysOf (j : ℕ) (gs : List PageGroup) : Bytes :=
  if j = 0 then keyBytes (gs.drop 1) else keyBytes gs

/-- A directory entry. -/
def entryBytes (first coff : ℕ) (g : PageGroup) : Bytes :=
  leBytes 2 first ++ leBytes 2 coff ++ leBytes 2 g.payload.length ++ leBytes 2 g.ulen4

lemma length_entryBytes (first coff : ℕ) (g : PageGroup) :
    (entryBytes first coff g).length = 8 := by
  simp [entryBytes]

lemma writeEntry_eq {page : Bytes} {pos first coff : ℕ} {g : PageGroup}
    (h : pos + 8 ≤ page.length) :
    writeAt (writeAt (writeAt (writeAt page (pos + D_FIRST) (leBytes 2 first)) (pos + D_COFF) (leBytes 2 coff))
        (pos + D_CLEN) (leBytes 2 g.payload.length)) (pos + D_ULEN4) (leBytes 2 g.ulen4)
      = writeAt page pos (entryBytes first coff g) := by
  have step : ∀ (x y : Bytes) (m : ℕ), m = pos + x.length →
      pos + x.length + y.length ≤ page.length →
      writeAt (writeAt page pos x) m y = writeAt page pos (x ++ y) := by
    rintro x y m rfl hfit
    exact writeAt_writeAt _ _ hfit
  rw [D_FIRST, D_COFF, D_CLEN, D_ULEN4, Nat.add_zero, entryBytes,
    step _ _ (pos + 2) (by simp) (by simp; omega),
    step _ _ (pos + 4) (by simp) (by simp; omega), step _ _ (pos + 6) (by simp) (by simp; omega)]

/-- **The loop over the groups** fills the three regions, each from where it has got to. -/
lemma writeGroups_eq (gs : List PageGroup) :
    ∀ (j first pos keysAt : ℕ) (page hd dd kd bd : Bytes),
      page = hd ++ (dd ++ (List.replicate (ZDIR_ENTRY * gs.length) 0 ++ (kd ++
        (List.replicate (keysOf j gs).length 0 ++ (bd ++ List.replicate (ZPAGE - pos) 0))))) →
      hd.length = ZHDR → dd.length = ZDIR_ENTRY * j →
      keysAt = ZHDR + ZDIR_ENTRY * (j + gs.length) + kd.length →
      pos = keysAt + (keysOf j gs).length + bd.length → bodyEnd pos gs ≤ ZPAGE →
      writeGroups (gs.zip (coffsFrom pos gs)) j first keysAt page
        = hd ++ (dd ++ (dirBytes first pos gs ++ (kd ++ (keysOf j gs ++ (bd ++ bodyBytes pos gs))))) := by
  induction gs with
  | nil =>
      intro j first pos keysAt page hd dd kd bd hpage _ _ _ _ _
      rw [List.zip_nil_left, writeGroups, hpage]
      have hk : keysOf j [] = [] := by
        rw [keysOf]
        split <;> rfl
      simp [hk, dirBytes, bodyBytes]
  | cons g gs ih =>
      intro j first pos keysAt page hd dd kd bd hpage hhd hdd hkeys hpos hfit
      have hal := le_alignUp pos (show 0 < 4 by omega)
      have hbe := le_bodyEnd gs (alignUp pos 4 + g.payload.length)
      rw [bodyEnd] at hfit
      -- the entry
      have hentry : writeAt page (ZHDR + j * ZDIR_ENTRY) (entryBytes first (alignUp pos 4) g)
          = hd ++ ((dd ++ entryBytes first (alignUp pos 4) g) ++ (List.replicate (ZDIR_ENTRY * gs.length) 0 ++ (kd ++
            (List.replicate (keysOf j (g :: gs)).length 0 ++ (bd ++ List.replicate (ZPAGE - pos) 0))))) := by
        rw [writeAt_zeros (hd ++ dd) (ZDIR_ENTRY * (g :: gs).length)
          (kd ++ (List.replicate (keysOf j (g :: gs)).length 0 ++ (bd ++ List.replicate (ZPAGE - pos) 0)))]
        · rw [length_entryBytes, List.length_cons, show ZDIR_ENTRY * (gs.length + 1) - 8 = ZDIR_ENTRY * gs.length by
            rw [ZDIR_ENTRY]; omega]
          simp only [List.append_assoc]
        · rw [hpage]
          simp only [List.append_assoc]
        · rw [List.length_append, hhd, hdd, Nat.mul_comm]
        · rw [length_entryBytes, List.length_cons, ZDIR_ENTRY]
          omega
      have hlen : ZHDR + j * ZDIR_ENTRY + 8 ≤ page.length := by
        rw [hpage]
        simp only [List.length_append, List.length_replicate, hhd, hdd, List.length_cons, ZDIR_ENTRY]
        omega
      -- the payload, once the keys are written
      have hpay : ∀ {kd' : Bytes} {n : ℕ}, (hd ++ ((dd ++ entryBytes first (alignUp pos 4) g) ++
            (List.replicate (ZDIR_ENTRY * gs.length) 0 ++ (kd' ++ (List.replicate n 0 ++ bd))))).length = pos →
          writeAt (hd ++ ((dd ++ entryBytes first (alignUp pos 4) g) ++ (List.replicate (ZDIR_ENTRY * gs.length) 0 ++
            (kd' ++ (List.replicate n 0 ++ (bd ++ List.replicate (ZPAGE - pos) 0)))))) (alignUp pos 4) g.payload
          = hd ++ ((dd ++ entryBytes first (alignUp pos 4) g) ++ (List.replicate (ZDIR_ENTRY * gs.length) 0 ++
            (kd' ++ (List.replicate n 0 ++ ((bd ++ (List.replicate (alignUp pos 4 - pos) 0 ++ g.payload)) ++
              List.replicate (ZPAGE - (alignUp pos 4 + g.payload.length)) 0))))) := by
        intro kd' n hat
        rw [writeAt_zeros (hd ++ ((dd ++ entryBytes first (alignUp pos 4) g) ++
            (List.replicate (ZDIR_ENTRY * gs.length) 0 ++ (kd' ++ (List.replicate n 0 ++ bd))))
            ++ List.replicate (alignUp pos 4 - pos) 0) (ZPAGE - alignUp pos 4) ([])]
        · rw [List.append_nil, show ZPAGE - alignUp pos 4 - g.payload.length
            = ZPAGE - (alignUp pos 4 + g.payload.length) by omega]
          simp only [List.append_assoc]
        · have hz : List.replicate (ZPAGE - pos) (0 : UInt8)
              = List.replicate (alignUp pos 4 - pos) 0 ++ List.replicate (ZPAGE - alignUp pos 4) 0 := by
            rw [List.replicate_append_replicate]
            congr 1
            omega
          rw [hz, List.append_nil]
          simp only [List.append_assoc]
        · rw [List.length_append, hat, List.length_replicate]
          omega
        · omega
      rw [coffsFrom, List.zip_cons_cons, writeGroups]
      simp only
      rw [writeEntry_eq hlen, hentry, dirBytes, bodyBytes]
      split
      · rename_i hj
        subst hj
        have hk : keysOf 0 (g :: gs) = keysOf 1 gs := rfl
        rw [hk] at hpos ⊢
        rw [hpay (by
          simp only [List.length_append, List.length_replicate, hhd, hdd, length_entryBytes]
          rw [hpos, hkeys, List.length_cons, ZDIR_ENTRY]
          omega)]
        have hk' : (keysOf (0 + 1) gs).length = (keysOf 1 gs).length := rfl
        rw [ih _ _ _ _ _ _ _ _ _ rfl hhd (by rw [List.length_append, hdd, length_entryBytes, ZDIR_ENTRY])
          (by rw [hkeys, List.length_cons, Nat.zero_add, Nat.zero_add, Nat.add_comm 1])
          (by simp only [List.length_append, List.length_replicate, hk']; omega) hfit]
        simp only [List.append_assoc, entryBytes]
      · rename_i hj
        have hk : keysOf j (g :: gs) = keyEntry g ++ keysOf (j + 1) gs := by
          rw [keysOf, if_neg hj, keysOf, if_neg (by omega)]
          rfl
        have hkl : (keyEntry g).length = 2 + g.key.length := by rw [keyEntry, List.length_append, length_leBytes]
        rw [hk, List.length_append, hkl] at hpos
        -- the key, its length and its bytes one behind the other
        have hkey : writeAt (writeAt (hd ++ ((dd ++ entryBytes first (alignUp pos 4) g) ++
              (List.replicate (ZDIR_ENTRY * gs.length) 0 ++ (kd ++ (List.replicate (keysOf j (g :: gs)).length 0 ++
                (bd ++ List.replicate (ZPAGE - pos) 0)))))) keysAt (leBytes 2 g.key.length)) (keysAt + 2) g.key
            = hd ++ ((dd ++ entryBytes first (alignUp pos 4) g) ++ (List.replicate (ZDIR_ENTRY * gs.length) 0 ++
              ((kd ++ keyEntry g) ++ (List.replicate (keysOf (j + 1) gs).length 0 ++
                (bd ++ List.replicate (ZPAGE - pos) 0))))) := by
          have htwo := writeAt_writeAt (hd ++ ((dd ++ entryBytes first (alignUp pos 4) g) ++
              (List.replicate (ZDIR_ENTRY * gs.length) 0 ++ (kd ++ (List.replicate (keysOf j (g :: gs)).length 0 ++
                (bd ++ List.replicate (ZPAGE - pos) 0)))))) keysAt (x := leBytes 2 g.key.length) (y := g.key)
            (by
              simp only [List.length_append, List.length_replicate, hhd, hdd, length_entryBytes,
                length_leBytes, hk, hkl]
              rw [hkeys, List.length_cons, ZDIR_ENTRY]
              omega)
          rw [length_leBytes] at htwo
          rw [htwo, ← keyEntry, writeAt_zeros (hd ++ ((dd ++ entryBytes first (alignUp pos 4) g) ++
              (List.replicate (ZDIR_ENTRY * gs.length) 0 ++ kd))) ((keysOf j (g :: gs)).length)
              (bd ++ List.replicate (ZPAGE - pos) 0)]
          · rw [hk, List.length_append, Nat.add_sub_cancel_left]
            simp only [List.append_assoc]
          · simp only [List.append_assoc]
          · simp only [List.length_append, List.length_replicate, hhd, hdd, length_entryBytes]
            rw [hkeys, List.length_cons, ZDIR_ENTRY]
            omega
          · rw [hk, List.length_append]
            omega
        rw [hkey, hpay (by
          simp only [List.length_append, List.length_replicate, hhd, hdd, length_entryBytes, hkl]
          rw [hpos, hkeys, List.length_cons, ZDIR_ENTRY]
          omega)]
        rw [ih _ _ _ _ _ _ _ _ _ rfl hhd (by rw [List.length_append, hdd, length_entryBytes, ZDIR_ENTRY]; omega)
          (by rw [hkeys, List.length_cons, List.length_append, hkl, show j + (gs.length + 1)
          = j + 1 + gs.length by omega]
              omega)
          (by simp only [List.length_append, List.length_replicate]; omega) hfit, hk]
        simp only [List.append_assoc, entryBytes]

/-! ## What `encode_page` accepts -/

/-- The groups written over the header's page of zeros: the page with a checksum of zeros. -/
lemma writeGroups_header {gs : List PageGroup} (hfit : bodyEnd (keysEnd gs) gs ≤ ZPAGE)
    (h : PageHeader) :
    writeGroups (gs.zip (coffsFrom (keysEnd gs) gs)) 0 0 (ZHDR + ZDIR_ENTRY * gs.length)
      (writeHeader h) = List.replicate 4 0 ++ restBytes h gs := by
  have hle := le_bodyEnd gs (keysEnd gs)
  have hz : List.replicate (ZPAGE - ZHDR) (0 : UInt8) = List.replicate (ZDIR_ENTRY * gs.length) 0 ++
      (List.replicate (keyBytes (gs.drop 1)).length 0 ++ List.replicate (ZPAGE - keysEnd gs) 0) :=
      by
    rw [List.replicate_append_replicate, List.replicate_append_replicate]
    congr 1
    rw [keysEnd] at *
    omega
  have hw := writeGroups_eq gs 0 0 (keysEnd gs) (ZHDR + ZDIR_ENTRY * gs.length) (writeHeader h)
    (List.replicate 4 0 ++ headBytes h) [] [] [] ?_ ?_ ?_ ?_ ?_ hfit
  · rw [hw, restBytes, keysOf, if_pos rfl]
    simp only [List.append_assoc, List.nil_append]
  · rw [writeHeader_eq, hz, keysOf, if_pos rfl]
    simp only [List.append_assoc, List.nil_append, List.append_nil]
  · rw [List.length_append, length_headBytes, List.length_replicate, ZHDR]
  · rfl
  · rw [Nat.zero_add]
    rfl
  · rw [keysOf, if_pos rfl, keysEnd]
    rfl

/-- **`encode_page` accepts exactly the groups that have a page**, and writes it. -/
lemma encodePage_iff {firstRank bind32 : BitVec 32} {gs : List PageGroup} {p : Bytes}
    {h : PageHeader} : encodePage firstRank gs bind32 = .ok (p, h)
      ↔ PageOk gs ∧ h = headerOf firstRank gs ∧ p = pageBytes h gs bind32 := by
  have hpage : ∀ {h : PageHeader}, bodyEnd (keysEnd gs) gs ≤ ZPAGE →
      writeAt (List.replicate 4 0 ++ restBytes h gs) P_CRC
        (leBytes 4 (pageCrc (List.replicate 4 0 ++ restBytes h gs) bind32).toNat) = pageBytes h gs bind32 := by
    intro h hfit
    have hw := writeAt_zeros [] 4 (restBytes h gs)
      (x := leBytes 4 (crc32 (restBytes h gs) ^^^ bind32).toNat)
      rfl rfl (by rw [length_leBytes])
    rw [List.nil_append, List.nil_append, length_leBytes, List.length_nil, Nat.sub_self,
      List.replicate_zero, List.nil_append] at hw
    rw [pageCrc, P_TAG, P_CRC, List.drop_left' List.length_replicate, hw, pageBytes]
  constructor
  · intro he
    rw [encodePage] at he
    split at he
    · simp at he
    rename_i hlen
    rw [not_or] at hlen
    rw [except_bind_eq_ok] at he
    obtain ⟨⟨count, ulen, stored⟩, hsum, he⟩ := he
    rw [sumGroups_ok] at hsum
    obtain ⟨hgroups, hsum⟩ := hsum
    simp only [Prod.mk.injEq, Nat.zero_add, Nat.zero_or] at hsum
    obtain ⟨rfl, rfl, rfl⟩ := hsum
    simp only at he
    split at he
    · simp at he
    rename_i hcount
    rw [pageLayout_eq hlen.1 (by omega)] at he
    split at he
    · simp at he
    rename_i coffs used hlay
    split at hlay
    · simp at hlay
    rename_i hkeys
    simp only [Option.some.injEq, Prod.mk.injEq] at hlay
    obtain ⟨rfl, rfl⟩ := hlay
    split at he
    · simp at he
    rename_i hcap
    have hfit : bodyEnd (keysEnd gs) gs ≤ ZPAGE := by
      rw [ZCAP, ZHDR, ZPAGE] at *
      omega
    rw [except_bind_eq_ok] at he
    obtain ⟨_, _, he⟩ := he
    simp only [Except.ok.injEq, Prod.mk.injEq] at he
    obtain ⟨rfl, rfl⟩ := he
    refine ⟨⟨hlen.1, by omega, hgroups, by omega, hfit⟩, rfl, ?_⟩
    rw [writeGroups_header hfit, hpage hfit]
  · rintro ⟨hok, rfl, rfl⟩
    have hmost := hok.most
    have hcount := hok.count
    have hfit := hok.fits
    have hkeys : alignUp (keysEnd gs) 4 ≤ ZPAGE := by
      obtain ⟨g, rest, rfl⟩ := List.exists_cons_of_ne_nil hok.ne
      rw [bodyEnd] at hfit
      have := le_bodyEnd rest (alignUp (keysEnd (g :: rest)) 4 + g.payload.length)
      omega
    have hsum : sumGroups gs 0 none (0, 0, 0) = .ok (recordsIn gs, ulenOf gs, storedOf 0 gs) :=
      (sumGroups_ok gs).mpr ⟨hok.groups, by simp⟩
    rw [encodePage, if_neg (by rw [not_or]; exact ⟨hok.ne, by omega⟩), hsum]
    simp only [bind, Except.bind]
    rw [if_neg (by omega), pageLayout_eq hok.ne hmost, if_neg (by omega)]
    simp only
    rw [if_neg (by rw [ZCAP]; omega)]
    have hc := hok.check firstRank
    rw [headerOf] at hc
    rw [hc]
    simp only
    rw [writeGroups_header hfit, hpage hfit, headerOf]

end Supdb

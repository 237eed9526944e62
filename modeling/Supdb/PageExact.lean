import Supdb.PageWrite

/-!
# The page format is exact

`parse_page` accepts a string of bytes exactly when it is the page of some groups, and its view then
names them.

* `keysRun`, `KeysAscend`, `keysFrom_iff` – the keys behind the directory, and what the loop over
  them accepts.
* `viewOf` – the view of the page of groups.
* **`parsePage_iff`** – what is accepted is a page, and its view is that page's.
* `PageView.pageGroups` – the groups a view names.
* **`page_exact`** – the two directions, and that a page is determined by what it names.
-/

namespace Supdb

open StorageLib

/-! ## The keys -/

/-- Keys, each with its length before it. -/
def keysRun (ks : List Bytes) : Bytes := ks.flatMap (fun k => leBytes 2 k.length ++ k)

/-- Keys a page may carry behind `prev`. -/
def KeysAscend : Option Bytes → List Bytes → Prop
  | _, [] => True
  | prev, k :: ks =>
      k ≠ [] ∧ k.length < 2 ^ 16 ∧ (∀ prev' ∈ prev, keyCmp prev' k = .lt) ∧ KeysAscend (some k) ks

/-- Where each of keys from `pos` on lies. -/
def spansFrom : ℕ → List Bytes → List (ℕ × ℕ)
  | _, [] => []
  | pos, k :: ks => (pos + 2, pos + 2 + k.length) :: spansFrom (pos + 2 + k.length) ks

lemma keysRun_cons (k : Bytes) (ks : List Bytes) :
    keysRun (k :: ks) = leBytes 2 k.length ++ k ++ keysRun ks := rfl

lemma keyBytes_eq (gs : List PageGroup) : keyBytes gs = keysRun (gs.map PageGroup.key) := by
  rw [keyBytes, keysRun, List.flatMap_map]
  rfl

lemma length_keysRun_cons (k : Bytes) (ks : List Bytes) :
    (keysRun (k :: ks)).length = 2 + k.length + (keysRun ks).length := by
  rw [keysRun_cons, List.length_append, List.length_append, length_leBytes]

lemma half_eq_iff {page : Bytes} {pos n : ℕ} (hlen : pos + 2 ≤ page.length) (hn : n < 2 ^ 16) :
    half page pos = n ↔ HasAt page pos (leBytes 2 n) := by
  rw [hasAt_leBytes hlen (by simpa using hn)]
  rfl

lemma half_lt (page : Bytes) (pos : ℕ) : half page pos < 2 ^ 16 := by
  have h := leNat_lt (slice page pos (pos + 2))
  have hl : (slice page pos (pos + 2)).length ≤ 2 := by
    rw [length_slice]
    omega
  calc half page pos < 256 ^ (slice page pos (pos + 2)).length := h
    _ ≤ 256 ^ 2 := Nat.pow_le_pow_right (by omega) hl
    _ = 2 ^ 16 := by norm_num

/-- **The loop over the keys** accepts exactly the bytes of keys in order. -/
lemma keysFrom_iff {page : Bytes} {stop : ℕ} (hstop : stop ≤ page.length) (n : ℕ) :
    ∀ {pos pos' : ℕ} {prev : Option Bytes} {spans : List (ℕ × ℕ)}, pos ≤ stop →
      (keysFrom page stop true n pos prev = .ok (spans, pos')
        ↔ ∃ ks, ks.length = n ∧ KeysAscend prev ks ∧ HasAt page pos (keysRun ks) ∧
            pos' = pos + (keysRun ks).length ∧ pos' ≤ stop ∧ spans = spansFrom pos ks) := by
  induction n with
  | zero =>
      intro pos pos' prev spans hpos
      rw [keysFrom, Except.ok.injEq, Prod.mk.injEq]
      constructor
      · rintro ⟨rfl, rfl⟩
        exact ⟨[], rfl, trivial, hasAt_nil page pos, rfl, hpos, rfl⟩
      · rintro ⟨ks, hks, _, _, rfl, _, rfl⟩
        rw [List.length_eq_zero_iff] at hks
        subst hks
        exact ⟨rfl, rfl⟩
  | succ n ih =>
      intro pos pos' prev spans hpos
      rw [keysFrom]
      constructor
      · intro h
        split at h
        · simp at h
        rename_i hin
        simp only at h
        split at h
        · simp at h
        rename_i hk
        split at h
        · simp at h
        rename_i hasc
        rw [not_or] at hk
        rw [except_bind_eq_ok] at h
        obtain ⟨⟨spans', end'⟩, hrest, h⟩ := h
        simp only [Except.ok.injEq, Prod.mk.injEq] at h
        obtain ⟨rfl, rfl⟩ := h
        obtain ⟨ks, hks, hok, hat, rfl, hend, rfl⟩ := (ih (by omega)).mp hrest
        have hlen : (slice page (pos + 2) (pos + 2 + half page pos)).length = half page pos := by
          rw [length_slice_of_le (by omega)]
          omega
        refine ⟨slice page (pos + 2) (pos + 2 + half page pos) ::
          ks, by rw [List.length_cons, hks], ?_, ?_, ?_, hend, ?_⟩
        · refine ⟨?_, by rw [hlen]; exact half_lt page pos, ?_, hok⟩
          · intro hnil
            rw [hnil] at hlen
            exact hk.1 hlen.symm
          · intro prev' hprev
            by_contra hc
            exact hasc ⟨trivial, prev', hprev, hc⟩
        · rw [keysRun_cons, hasAt_append, hasAt_append, List.length_append, length_leBytes, hlen, ← Nat.add_assoc]
          refine ⟨⟨(half_eq_iff (by omega) (half_lt page pos)).mp rfl, ?_⟩, hat⟩
          exact hasAt_slice (by omega) (by omega)
        · rw [length_keysRun_cons, hlen]
          omega
        · rw [spansFrom, hlen]
      · rintro ⟨ks, hks, hok, hat, rfl, hend, rfl⟩
        obtain ⟨k, ks, rfl⟩ := List.exists_cons_of_length_eq_add_one hks
        obtain ⟨hne, hlt, hasc, hok⟩ := hok
        have hpos' := List.length_pos_iff.mpr hne
        rw [length_keysRun_cons] at hend
        rw [keysRun_cons, hasAt_append, hasAt_append, List.length_append, length_leBytes, ← Nat.add_assoc] at hat
        obtain ⟨⟨hlen, hkey⟩, hat⟩ := hat
        have hhalf := (half_eq_iff (by omega) hlt).mpr hlen
        have hkey' : slice page (pos + 2) (pos + 2 + k.length) = k := hkey
        rw [if_neg (by omega), hhalf]
        simp only
        rw [if_neg (by omega), hkey', if_neg]
        · have hrest : keysFrom page stop true n (pos + 2 + k.length) (some k) = _ :=
            (ih (by omega)).mpr ⟨ks, by simpa using hks, hok, hat, rfl, by omega, rfl⟩
          rw [hrest]
          simp only [bind, Except.bind, spansFrom, length_keysRun_cons, Nat.add_assoc]
        · rintro ⟨_, prev', hprev, hc⟩
          exact hc (hasc prev' hprev)

/-! ## The groups -/

/-- A group whose own values a page may carry. -/
structure OwnOk (g : PageGroup) : Prop where
  count : g.count ≠ 0
  ulen : g.ulen ≠ 0 ∧ 4 ∣ g.ulen ∧ g.ulen ≤ ZMAX_ULEN
  payload : g.payload ≠ [] ∧ g.payload.length ≤ ZCAP
  whole : g.stored → g.payload.length = g.ulen
  plain : ¬(g.stored ∧ g.coded)

lemma check_none_iff {g : PageGroup} : g.check none = .ok () ↔ OwnOk g := by
  constructor
  · intro h
    unfold PageGroup.check at h
    split at h
    · simp at h
    rename_i hc
    split at h
    · simp at h
    rename_i hu
    split at h
    · simp at h
    rename_i hp
    split at h
    · simp at h
    rename_i hw
    split at h
    · simp at h
    rename_i hpl
    rw [not_or] at hp
    refine ⟨hc, by omega, ⟨hp.1, by omega⟩, ?_, hpl⟩
    intro hs
    by_contra hne
    exact hw ⟨hs, hne⟩
  · rintro ⟨hc, hu, hp, hw, hpl⟩
    rw [PageGroup.check, if_neg hc, if_neg (by omega),
      if_neg (by rw [not_or]; exact ⟨hp.1, by omega⟩), if_neg ?_, if_neg hpl]
    rintro ⟨hs, hne⟩
    exact hne (hw hs)

lemma check_some_iff {g : PageGroup} {p : Bytes} :
    g.check (some p) = .ok () ↔ OwnOk g ∧ g.key ≠ [] ∧ g.key.length < 2 ^ 16 ∧
    keyCmp p g.key = .lt := by
  have hown : g.check (some p) = .ok () ↔ g.check none = .ok () ∧
      ¬(g.key = [] ∨ 2 ^ 16 - 1 < g.key.length) ∧ ¬keyCmp p g.key ≠ .lt := by
    unfold PageGroup.check
    split
    · simp
    split
    · simp
    split
    · simp
    split
    · simp
    split
    · simp
    simp only [true_and]
    split
    · rename_i hk
      exact ⟨fun h => absurd h (by simp), fun h => absurd hk h.1⟩
    · rename_i hk
      split
      · rename_i ho
        simp [ho]
      · rename_i ho
        exact ⟨fun _ => ⟨hk, ho⟩, fun _ => rfl⟩
  rw [hown, check_none_iff, not_or, not_not]
  constructor
  · rintro ⟨ho, ⟨hk, hl⟩, hc⟩
    exact ⟨ho, hk, by omega, hc⟩
  · rintro ⟨ho, hk, hl, hc⟩
    exact ⟨ho, ⟨hk, by omega⟩, hc⟩

lemma groupsOk_some (gs : List PageGroup) :
    ∀ {p : Bytes}, GroupsOk (some p) gs ↔ (∀ g ∈ gs, OwnOk g) ∧
    KeysAscend (some p) (gs.map PageGroup.key) := by
  induction gs with
  | nil => intro p; simp [GroupsOk, KeysAscend]
  | cons g gs ih =>
      intro p
      rw [GroupsOk, check_some_iff, ih, List.map_cons, KeysAscend, List.forall_mem_cons]
      constructor
      · rintro ⟨⟨ho, hk, hl, hc⟩, hos, hks⟩
        refine ⟨⟨ho, hos⟩, hk, hl, ?_, hks⟩
        rintro p' hp'
        rw [Option.mem_some_iff] at hp'
        rwa [← hp']
      · rintro ⟨⟨ho, hos⟩, hk, hl, hc, hks⟩
        exact ⟨⟨ho, hk, hl, hc p rfl⟩, hos, hks⟩

lemma groupsOk_cons {g : PageGroup} {gs : List PageGroup} :
    GroupsOk none (g :: gs) ↔ (∀ x ∈ g :: gs, OwnOk x) ∧ KeysAscend (some g.key)
    (gs.map PageGroup.key) := by
  rw [GroupsOk, check_none_iff, groupsOk_some, List.forall_mem_cons, and_assoc]

lemma keysAscend_weaken {ks : List Bytes} {p : Bytes} (h : KeysAscend (some p) ks) :
    KeysAscend none ks := by
  cases ks with
  | nil => exact trivial
  | cons k ks =>
      obtain ⟨hne, hlt, _, hok⟩ := h
      exact ⟨hne, hlt, by simp, hok⟩

lemma OwnOk.ulen4_lt {g : PageGroup} (h : OwnOk g) : g.ulen4 < 2 ^ 16 := by
  have := h.ulen.2.2
  rw [PageGroup.ulen4, D_CODED]
  rw [ZMAX_ULEN] at this
  split
  · omega
  · omega

lemma OwnOk.ulen_eq {g : PageGroup} (h : OwnOk g) : g.ulen4 % D_CODED * 4 = g.ulen := by
  obtain ⟨_, hd, hle⟩ := h.ulen
  rw [PageGroup.ulen4, D_CODED]
  rw [ZMAX_ULEN] at hle
  split
  · omega
  · omega

lemma OwnOk.coded_iff {g : PageGroup} (h : OwnOk g) : D_CODED ≤ g.ulen4 ↔ g.coded = true := by
  have hle := h.ulen.2.2
  rw [PageGroup.ulen4, D_CODED]
  rw [ZMAX_ULEN] at hle
  cases g.coded with
  | false => simp; omega
  | true => simp

/-! ## The directory -/

lemma entryRaw_iff {v : PageView} {j first coff : ℕ} {g : PageGroup}
    (hlen : ZHDR + j * ZDIR_ENTRY + 8 ≤ v.page.length) (hf : first < 2 ^ 16) (hc : coff < 2 ^ 16)
    (hp : g.payload.length < 2 ^ 16) (hu : g.ulen4 < 2 ^ 16) :
    v.entryRaw j = (first, coff, g.payload.length, g.ulen4)
      ↔ HasAt v.page (ZHDR + j * ZDIR_ENTRY) (entryBytes first coff g) := by
  rw [entryBytes, hasAt_append, hasAt_append, hasAt_append]
  simp only [List.length_append, length_leBytes, Nat.reduceAdd]
  rw [← half_eq_iff (by omega) hf, ← half_eq_iff (by omega) hc, ← half_eq_iff (by omega) hp,
    ← half_eq_iff (by omega) hu, PageView.entryRaw]
  simp only [Prod.mk.injEq, D_FIRST, D_COFF, D_CLEN, D_ULEN4, Nat.add_zero, and_assoc]

/-- The first record's index of group `j`, or the records' count behind the last group. -/
def PageView.firstOf (v : PageView) (j : ℕ) : ℕ :=
  if j < v.header.groups then (v.entryRaw j).1 else v.header.count

lemma PageView.group_eq_some {v : PageView} {j : ℕ} {e : GroupEntry} :
    v.group j = some e ↔ j < v.header.groups ∧ (v.entryRaw j).1 ≤ v.firstOf (j + 1) ∧
      e = ⟨(v.entryRaw j).1, v.firstOf (j + 1) - (v.entryRaw j).1, (v.entryRaw j).2.1, (v.entryRaw j).2.2.1,
        (v.entryRaw j).2.2.2 % D_CODED * 4, v.header.isStored j, decide (D_CODED ≤ (v.entryRaw j).2.2.2)⟩ := by
  rw [PageView.group, PageView.firstOf]
  split
  · rename_i hj
    simp [Nat.not_lt.mpr hj]
  · rename_i hj
    rcases hr : v.entryRaw j with ⟨first, coff, clen, ulen4⟩
    generalize (if j + 1 < v.header.groups then (v.entryRaw (j + 1)).1 else v.header.count) = next
    simp only
    split
    · rename_i hle
      rw [Option.some.injEq]
      exact ⟨fun h => ⟨by omega, hle, h.symm⟩, fun h => h.2.2.symm⟩
    · rename_i hle
      simp only [reduceCtorEq, false_iff]
      rintro ⟨_, h, _⟩
      exact hle h

lemma entryRaw_lt (v : PageView) (j : ℕ) : (v.entryRaw j).1 < 2 ^ 16 ∧ (v.entryRaw j).2.1 < 2 ^ 16
    ∧ (v.entryRaw j).2.2.1 < 2 ^ 16 ∧ (v.entryRaw j).2.2.2 < 2 ^ 16 :=
  ⟨half_lt _ _, half_lt _ _, half_lt _ _, half_lt _ _⟩

/-- The group an entry names. -/
def PageView.groupAt (v : PageView) (j : ℕ) (k : Bytes) : PageGroup :=
  ⟨v.firstOf (j + 1) - (v.entryRaw j).1,
    slice v.page (v.entryRaw j).2.1 ((v.entryRaw j).2.1 + (v.entryRaw j).2.2.1),
    (v.entryRaw j).2.2.2 % D_CODED * 4, v.header.isStored j,
    decide (D_CODED ≤ (v.entryRaw j).2.2.2), k⟩

lemma PageView.ulen4_groupAt (v : PageView) (j : ℕ) (k : Bytes) :
    (v.groupAt j k).ulen4 = (v.entryRaw j).2.2.2 := by
  have h := (entryRaw_lt v j).2.2.2
  rw [PageGroup.ulen4, PageView.groupAt]
  simp only [decide_eq_true_eq]
  rw [D_CODED]
  split
  · omega
  · omega

/-- What one turn of the loop over the directory checks. -/
lemma entriesFrom_succ {v : PageView} {stop n j expect ulen u : ℕ} :
    entriesFrom v stop (n + 1) j expect ulen = .ok u
      ↔ (j ≠ 0 → (v.entryRaw (j - 1)).1 < (v.entryRaw j).1) ∧ (j = 0 → (v.entryRaw j).1 = 0)
        ∧ (v.entryRaw j).1 < v.header.count ∧ (v.entryRaw j).2.1 = expect ∧ (v.entryRaw j).2.2.1 ≠ 0
        ∧ ((v.entryRaw j).2.2.2 % D_CODED * 4 ≠ 0 ∧ (v.entryRaw j).2.2.2 % D_CODED * 4 ≤ ZMAX_ULEN)
        ∧ (v.header.isStored j → (v.entryRaw j).2.2.1 = (v.entryRaw j).2.2.2 % D_CODED * 4)
        ∧ ¬(v.header.isStored j ∧ D_CODED ≤ (v.entryRaw j).2.2.2)
        ∧ (v.entryRaw j).2.1 + (v.entryRaw j).2.2.1 ≤ stop
        ∧ (j + 1 = v.header.groups → (v.entryRaw j).2.1 + (v.entryRaw j).2.2.1 = stop)
        ∧ entriesFrom v stop n (j + 1) (alignUp ((v.entryRaw j).2.1 + (v.entryRaw j).2.2.1) 4)
            (ulen + (v.entryRaw j).2.2.2 % D_CODED * 4) = .ok u := by
  rw [entriesFrom]
  rcases v.entryRaw j with ⟨first, coff, clen, ulen4⟩
  have hwant : (first ≠ if j = 0 then 0 else first) ↔ j = 0 ∧ first ≠ 0 := by
    split
    · rename_i hj
      simp [hj]
    · rename_i hj
      simp [hj]
  simp only [hwant]
  constructor
  · intro h
    split at h
    · simp at h
    split at h
    · simp at h
    split at h
    · simp at h
    split at h
    · simp at h
    split at h
    · simp at h
    split at h
    · simp at h
    split at h
    · simp at h
    split at h
    · simp at h
    rename_i hasc hfirst hcoff hulen hwhole hplain hend hlast
    refine ⟨by omega, by omega, by omega, by omega, by omega, by omega, ?_, hplain, by omega, by omega, h⟩
    intro hs
    by_contra hne
    exact hwhole ⟨hs, hne⟩
  · rintro ⟨hasc, hfirst, hcount, hcoff, hclen, hulen, hwhole, hplain, hend, hlast, h⟩
    rw [if_neg (by omega), if_neg (by omega), if_neg (by omega), if_neg (by omega), if_neg ?_,
      if_neg hplain, if_neg (by omega), if_neg (by omega), h]
    rintro ⟨hs, hne⟩
    exact hne (hwhole hs)

/-- What one turn of the loop over the gaps checks. -/
lemma gapsFrom_succ {v : PageView} {n j gapFrom : ℕ} :
    gapsFrom v (n + 1) j gapFrom = .ok ()
      ↔ j < v.header.groups ∧ (v.entryRaw j).1 ≤ v.firstOf (j + 1)
        ∧ (slice v.page gapFrom (v.entryRaw j).2.1).any (· ≠ 0) = false
        ∧ gapsFrom v n (j + 1) ((v.entryRaw j).2.1 + (v.entryRaw j).2.2.1) = .ok () := by
  rw [gapsFrom]
  constructor
  · intro h
    split at h
    · simp at h
    rename_i e he
    obtain ⟨hj, hle, rfl⟩ := PageView.group_eq_some.mp he
    split at h
    · simp at h
    rename_i hz
    exact ⟨hj, hle, by simpa using hz, h⟩
  · rintro ⟨hj, hle, hz, h⟩
    rw [PageView.group_eq_some.mpr ⟨hj, hle, rfl⟩]
    simp only
    rw [hz, if_neg (by simp), h]

/-- **What the loops over the directory accept** is the directory and the payloads of groups. -/
lemma groups_of_entriesFrom {v : PageView} {stop : ℕ} (hlen : v.page.length = ZPAGE)
    (hstop : stop ≤ ZPAGE) (htail : HasAt v.page stop (List.replicate (ZPAGE - stop) 0))
    (hmost : v.header.groups ≤ ZMAX_GROUPS) (ks : List Bytes) :
    ∀ {j pos ulen u : ℕ}, j + ks.length = v.header.groups → ZHDR ≤ pos →
      (ks = [] → pos = stop ∧ (j ≠ 0 → (v.entryRaw (j - 1)).1 < v.header.count)) →
      entriesFrom v stop ks.length j (alignUp pos 4) ulen = .ok u →
      gapsFrom v ks.length j pos = .ok () → ∃ gs, gs.map PageGroup.key = ks ∧ (∀ g ∈ gs, OwnOk g)
        ∧ HasAt v.page (ZHDR + j * ZDIR_ENTRY) (dirBytes (v.firstOf j) pos gs)
        ∧ HasAt v.page pos (bodyBytes pos gs) ∧ u = ulen + ulenOf gs
        ∧ v.firstOf j + recordsIn gs = v.header.count ∧ bodyEnd pos gs = stop
        ∧ (∀ i g, gs[i]? = some g → g.stored = v.header.isStored (j + i))
        ∧ (j ≠ 0 → (v.entryRaw (j - 1)).1 < v.firstOf j) := by
  induction ks with
  | nil =>
      intro j pos ulen u hj _ hend he _
      obtain ⟨rfl, hlast⟩ := hend rfl
      have hfirst : v.firstOf j = v.header.count := by
        rw [PageView.firstOf, if_neg]
        rw [List.length_nil] at hj
        omega
      rw [List.length_nil, entriesFrom, Except.ok.injEq] at he
      refine ⟨[], rfl, by simp, hasAt_nil _ _, htail, by rw [← he]; rfl, ?_, rfl, by simp, ?_⟩
      · rw [hfirst]
        rfl
      · rw [hfirst]
        exact hlast
  | cons k ks ih =>
      intro j pos ulen u hj hpos _ he hg
      rw [List.length_cons] at hj he hg
      obtain ⟨hasc, hzero, hcount, hcoff, hclen, hulen, hwhole, hplain, hend, hlast, he⟩ := entriesFrom_succ.mp he
      obtain ⟨hjlt, hle, hgap, hg⟩ := gapsFrom_succ.mp hg
      have hfirst : v.firstOf j = (v.entryRaw j).1 := by rw [PageView.firstOf, if_pos hjlt]
      have hal := le_alignUp pos (show 0 < 4 by omega)
      have hlt := entryRaw_lt v j
      obtain ⟨gs, hks, hown, hdir, hbody, rfl, hsum, hbe, hst, hnext⟩ := ih (by omega) (by omega) (by
        rintro rfl
        refine ⟨hlast (by simpa using hj), ?_⟩
        intro _
        exact hcount) he hg
      have hnext' : (v.entryRaw j).1 < v.firstOf (j + 1) := by simpa using hnext
      have hplen : (v.groupAt j k).payload.length = (v.entryRaw j).2.2.1 := by
        rw [PageView.groupAt]
        simp only
        rw [length_slice_of_le (by omega)]
        omega
      have hcnt : (v.entryRaw j).1 + (v.groupAt j k).count = v.firstOf (j + 1) := Nat.add_sub_cancel' hle
      refine ⟨v.groupAt j k :: gs, by rw [List.map_cons, hks]; rfl, ?_, ?_, ?_, ?_, ?_, ?_, ?_, ?_⟩
      · rw [List.forall_mem_cons]
        refine ⟨⟨?_, ⟨hulen.1, Nat.dvd_mul_left 4 _, hulen.2⟩, ⟨?_, ?_⟩, ?_, ?_⟩, hown⟩
        · rw [PageView.groupAt]
          simp only
          omega
        · intro hnil
          rw [hnil] at hplen
          exact hclen hplen.symm
        · rw [hplen, ZCAP]
          omega
        · intro hs
          rw [hplen]
          exact hwhole hs
        · rintro ⟨hs, hc⟩
          exact hplain ⟨hs, of_decide_eq_true hc⟩
      · rw [dirBytes, ← entryBytes, hasAt_append, length_entryBytes, hfirst, ← hcoff]
        refine ⟨?_, ?_⟩
        · rw [← entryRaw_iff (by rw [hlen, ZPAGE, ZHDR, ZDIR_ENTRY]; rw [ZMAX_GROUPS] at hmost; omega) hlt.1 hlt.2.1
            (by rw [hplen]; exact hlt.2.2.1) (by rw [PageView.ulen4_groupAt]; exact hlt.2.2.2), hplen,
            PageView.ulen4_groupAt]
        · rw [hplen, hcnt]
          convert hdir using 1
          rw [Nat.add_mul, Nat.one_mul, ← Nat.add_assoc, ZDIR_ENTRY]
      · rw [bodyBytes, hasAt_append, hasAt_append, ← hcoff, List.length_append,
          List.length_replicate, ← Nat.add_assoc, Nat.add_sub_cancel' (by omega), hplen]
        refine ⟨⟨(hasAt_zeros (by omega) (by omega)).mpr hgap, ?_⟩, hbody⟩
        exact hasAt_slice (by omega) (by omega)
      · rw [ulenOf, ulenOf, List.map_cons, List.sum_cons, PageView.groupAt, Nat.add_assoc]
      · rw [recordsIn, List.map_cons, List.sum_cons, ← recordsIn, hfirst, ← Nat.add_assoc, hcnt, hsum]
      · rw [bodyEnd, hplen, ← hcoff, hbe]
      · intro i g hi
        cases i with
        | zero =>
            rw [List.getElem?_cons_zero, Option.some.injEq] at hi
            rw [← hi]
            rfl
        | succ i =>
            rw [List.getElem?_cons_succ] at hi
            rw [hst i g hi, Nat.add_assoc, Nat.add_comm 1]
      · rw [hfirst]
        exact hasc

/-- **The directory and the payloads of groups are accepted**, and each entry names its group. -/
lemma entriesFrom_of_groups {v : PageView} {stop : ℕ} (hlen : v.page.length = ZPAGE)
    (hstop : stop ≤ ZPAGE) (hmost : v.header.groups ≤ ZMAX_GROUPS)
    (hcount : v.header.count ≤ ZMAX_COUNT) (gs : List PageGroup) :
    ∀ (j first pos ulen : ℕ), j + gs.length = v.header.groups → (∀ g ∈ gs, OwnOk g) →
      HasAt v.page (ZHDR + j * ZDIR_ENTRY) (dirBytes first pos gs) →
      HasAt v.page pos (bodyBytes pos gs) →
      first + recordsIn gs = v.header.count → bodyEnd pos gs = stop →
      (∀ i g, gs[i]? = some g → g.stored = v.header.isStored (j + i)) →
      (j ≠ 0 → (v.entryRaw (j - 1)).1 < first) → (j = 0 → first = 0) →
      entriesFrom v stop gs.length j (alignUp pos 4) ulen = .ok (ulen + ulenOf gs) ∧
        gapsFrom v gs.length j pos = .ok () ∧ v.firstOf j = first
        ∧ ∀ i g, gs[i]? = some g → (v.entryRaw (j + i)).1 ≤ v.firstOf (j + i + 1)
            ∧ (v.entryRaw (j + i)).2.1 + (v.entryRaw (j + i)).2.2.1 ≤ ZPAGE ∧ v.groupAt (j + i) g.key = g := by
  induction gs with
  | nil =>
      intro j first pos ulen hj _ _ _ hsum _ _ _ _
      refine ⟨rfl, rfl, ?_, by simp⟩
      rw [PageView.firstOf, if_neg]
      · exact hsum.symm
      · rw [List.length_nil] at hj
        omega
  | cons g gs ih =>
      intro j first pos ulen hj hown hdir hbody hsum hend hst hasc hzero
      rw [List.length_cons] at hj
      rw [List.forall_mem_cons] at hown
      obtain ⟨hg, hown⟩ := hown
      have hal := le_alignUp pos (show 0 < 4 by omega)
      have hbe := le_bodyEnd gs (alignUp pos 4 + g.payload.length)
      rw [bodyEnd] at hend
      have hpos := List.length_pos_iff.mpr hg.payload.1
      rw [recordsIn, List.map_cons, List.sum_cons, ← recordsIn] at hsum
      have hgc := hg.count
      rw [dirBytes, ← entryBytes, hasAt_append, length_entryBytes] at hdir
      obtain ⟨hentry, hdir⟩ := hdir
      rw [bodyBytes, hasAt_append, hasAt_append, List.length_append,
        List.length_replicate, ← Nat.add_assoc, Nat.add_sub_cancel' hal] at hbody
      obtain ⟨⟨hgap, hpay⟩, hbody⟩ := hbody
      have hraw : v.entryRaw j = (first, alignUp pos 4, g.payload.length, g.ulen4) := by
        rw [ZMAX_COUNT] at hcount
        rw [ZPAGE] at hstop
        refine (entryRaw_iff ?_ (by omega) (by omega) (by omega) hg.ulen4_lt).mpr hentry
        rw [hlen, ZPAGE, ZHDR, ZDIR_ENTRY]
        rw [ZMAX_GROUPS] at hmost
        omega
      have hdir' : HasAt v.page (ZHDR + (j + 1) * ZDIR_ENTRY)
          (dirBytes (first + g.count) (alignUp pos 4 + g.payload.length) gs) := by
        convert hdir using 1
        rw [Nat.add_mul, Nat.one_mul, ← Nat.add_assoc, ZDIR_ENTRY]
      have hst0 : g.stored = v.header.isStored j := hst 0 g rfl
      obtain ⟨he, hg', hfirst, hrest⟩ := ih (j + 1) _ _ (ulen + g.ulen)
        (by omega) hown hdir' hbody (by omega) hend (by
          intro i x hi
          rw [hst (i + 1) x (by rwa [List.getElem?_cons_succ]), Nat.add_assoc, Nat.add_comm 1])
        (by
          intro _
          rw [Nat.add_sub_cancel, hraw]
          exact Nat.lt_add_of_pos_right (Nat.pos_of_ne_zero hgc))
        (by omega)
      have hat : v.groupAt j g.key = g := by
        rw [PageView.groupAt, hraw, hfirst]
        simp only [hg.ulen_eq, hg.coded_iff, ← hst0, Bool.decide_eq_true, Nat.add_sub_cancel_left]
        rw [show slice v.page (alignUp pos 4) (alignUp pos 4 + g.payload.length) = g.payload from hpay]
      refine ⟨?_, ?_, ?_, ?_⟩
      · rw [List.length_cons, entriesFrom_succ, hraw]
        simp only
        rw [hg.ulen_eq, ← hst0, hg.coded_iff]
        refine ⟨hasc,
          hzero, by omega, trivial, by omega, ⟨hg.ulen.1,
          hg.ulen.2.2⟩, hg.whole, hg.plain, by omega, ?_, ?_⟩
        · intro hlast
          obtain rfl : gs = [] := List.length_eq_zero_iff.mp (by omega)
          exact hend
        · rw [he, ulenOf, ulenOf, List.map_cons, List.sum_cons, Nat.add_assoc]
      · rw [List.length_cons, gapsFrom_succ, hraw, hfirst]
        refine ⟨by omega, by omega, ?_, hg'⟩
        exact (hasAt_zeros hal (by omega)).mp hgap
      · rw [PageView.firstOf, if_pos (by omega), hraw]
      · intro i x hi
        cases i with
        | zero =>
            rw [List.getElem?_cons_zero, Option.some.injEq] at hi
            rw [← hi, Nat.add_zero, hraw, hfirst]
            refine ⟨by omega, by simp only; omega, hat⟩
        | succ i =>
            rw [List.getElem?_cons_succ] at hi
            have h := hrest i x hi
            rwa [Nat.add_assoc j, Nat.add_comm 1] at h

/-! ## The view -/

/-- Group `j` of a view, as its functions name it; a page holds no key for group 0, whose key is
given. -/
def PageView.pageGroup (v : PageView) (key0 : Bytes) (j : ℕ) : Option PageGroup := do
  let g ← v.group j
  let payload ← v.payload j
  let key ← if j = 0 then some key0 else v.key j
  some ⟨g.count, payload, g.ulen, g.stored, g.coded, key⟩

/-- The `n` groups of a view from `j` on. -/
def PageView.groupsFrom (v : PageView) (key0 : Bytes) : ℕ → ℕ → Option (List PageGroup)
  | 0, _ => some []
  | n + 1, j => do
      let g ← v.pageGroup key0 j
      let gs ← v.groupsFrom key0 n (j + 1)
      some (g :: gs)

/-- The groups a view names. -/
def PageView.pageGroups (v : PageView) (key0 : Bytes) : Option (List PageGroup) :=
  v.groupsFrom key0 v.header.groups 0

/-- The view of the page of groups. -/
def viewOf (firstRank : BitVec 32) (gs : List PageGroup) (bind32 : BitVec 32) : PageView :=
  ⟨headerOf firstRank gs, pageBytes (headerOf firstRank gs) gs bind32,
    ZHDR + ZDIR_ENTRY * gs.length,
    spansFrom (ZHDR + ZDIR_ENTRY * gs.length) ((gs.drop 1).map PageGroup.key)⟩

/-- Where a key lies, and that it does. -/
lemma spansFrom_get {page : Bytes} (ks : List Bytes) :
    ∀ {pos i : ℕ} {k : Bytes}, HasAt page pos (keysRun ks) →
      pos + (keysRun ks).length ≤ page.length → ks[i]? = some k →
      ∃ s, (spansFrom pos ks)[i]? = some s ∧ getRange page s.1 s.2 = some k := by
  induction ks with
  | nil => intro pos i k _ _ hi; simp at hi
  | cons x ks ih =>
      intro pos i k hat hlen hi
      rw [length_keysRun_cons] at hlen
      rw [keysRun_cons, hasAt_append, hasAt_append, List.length_append, length_leBytes, ← Nat.add_assoc] at hat
      obtain ⟨⟨_, hx⟩, hat⟩ := hat
      cases i with
      | zero =>
          rw [List.getElem?_cons_zero, Option.some.injEq] at hi
          subst hi
          refine ⟨_, rfl, ?_⟩
          rw [getRange, if_pos ⟨by omega, by omega⟩]
          exact congrArg some hx
      | succ i =>
          rw [List.getElem?_cons_succ] at hi
          rw [spansFrom, List.getElem?_cons_succ]
          exact ih hat (by omega) hi

lemma spansFrom_last (ks : List Bytes) :
    ∀ pos, ((spansFrom pos ks).getLast?.map Prod.snd).getD pos = pos + (keysRun ks).length := by
  induction ks with
  | nil => intro pos; rfl
  | cons k ks ih =>
      intro pos
      have h := ih (pos + 2 + k.length)
      rw [length_keysRun_cons, spansFrom, List.getLast?_cons, Option.map_some, Option.getD_some]
      cases hl : (spansFrom (pos + 2 + k.length) ks).getLast? with
      | none =>
          rw [hl, Option.map_none, Option.getD_none] at h
          simp only [Option.getD_none]
          omega
      | some s =>
          rw [hl, Option.map_some, Option.getD_some] at h
          simp only [Option.getD_some]
          omega

lemma pageGroup_eq {v : PageView} {key0 k : Bytes} {j : ℕ} (hj : j < v.header.groups)
    (hle : (v.entryRaw j).1 ≤ v.firstOf (j + 1))
    (hin : (v.entryRaw j).2.1 + (v.entryRaw j).2.2.1 ≤ v.page.length)
    (hk : (if j = 0 then some key0 else v.key j) = some k) : v.pageGroup key0 j
    = some (v.groupAt j k) := by
  rw [PageView.pageGroup, PageView.payload, PageView.group_eq_some.mpr ⟨hj, hle, rfl⟩]
  simp only [Option.bind_eq_bind, Option.bind_some]
  rw [getRange, if_pos ⟨by omega, hin⟩]
  split
  · rename_i h0
    rw [if_pos h0, Option.some.injEq] at hk
    rw [hk]
    rfl
  · rename_i h0
    rw [if_neg h0] at hk
    rw [hk]
    rfl

lemma groupsFrom_eq {v : PageView} {key0 : Bytes} (gs : List PageGroup) :
    ∀ {j : ℕ}, (∀ i g, gs[i]? = some g → v.pageGroup key0 (j + i) = some g) →
      v.groupsFrom key0 gs.length j = some gs := by
  induction gs with
  | nil => intro j _; rfl
  | cons g gs ih =>
      intro j h
      have h0 := h 0 g rfl
      rw [Nat.add_zero] at h0
      have hrest := ih (j := j + 1) (by
        intro i x hi
        rw [Nat.add_assoc, Nat.add_comm 1]
        exact h (i + 1) x hi)
      rw [List.length_cons, PageView.groupsFrom, h0, hrest]
      rfl

/-- The pieces of a page. -/
lemma pageBytes_pieces {gs : List PageGroup} (h : PageHeader) (bind32 : BitVec 32) (p : Bytes)
    (hfit : bodyEnd (keysEnd gs) gs ≤ ZPAGE) :
    p = pageBytes h gs bind32 ↔ p.length = ZPAGE ∧ HasAt p 0 (leBytes 4 (pageCrc p bind32).toNat) ∧
      HasAt p 4 (headBytes h) ∧ HasAt p ZHDR (dirBytes 0 (keysEnd gs) gs)
      ∧ HasAt p (ZHDR + ZDIR_ENTRY * gs.length) (keysRun ((gs.drop 1).map PageGroup.key))
      ∧ HasAt p (keysEnd gs) (bodyBytes (keysEnd gs) gs) := by
  have hrest : ∀ {p : Bytes}, p.length = ZPAGE →
      (p.drop 4 = restBytes h gs ↔ HasAt p 4 (headBytes h) ∧
      HasAt p ZHDR (dirBytes 0 (keysEnd gs) gs) ∧ HasAt p (ZHDR + ZDIR_ENTRY * gs.length)
      (keysRun ((gs.drop 1).map PageGroup.key))
      ∧ HasAt p (keysEnd gs) (bodyBytes (keysEnd gs) gs)) := by
    intro p hlen
    rw [drop_eq_iff_hasAt (by rw [hlen, length_restBytes h hfit, ZPAGE]), restBytes, hasAt_append,
      hasAt_append, hasAt_append, ← keyBytes_eq]
    simp only [List.length_append, length_headBytes, length_dirBytes, keysEnd, ZHDR,
      and_assoc, ← Nat.add_assoc, Nat.reduceAdd]
  have hcrc : ∀ {x : Bytes} {c : BitVec 32}, pageCrc (leBytes 4 c.toNat ++ x) bind32
    = crc32 x ^^^ bind32 := by
    intro x c
    rw [pageCrc, P_TAG, List.drop_left' (length_leBytes 4 _)]
  constructor
  · rintro rfl
    have hlen := length_pageBytes h bind32 hfit
    refine ⟨hlen, ?_, (hrest hlen).mp ?_⟩
    · rw [pageBytes, hcrc]
      exact hasAt_start _ _
    · rw [pageBytes, List.drop_left' (length_leBytes 4 _)]
  · rintro ⟨hlen, hat, hpieces⟩
    have hdrop := (hrest hlen).mpr hpieces
    rw [HasAt, length_leBytes, Nat.zero_add, slice_eq_take_drop, List.drop_zero, Nat.sub_zero,
      pageCrc, P_TAG, hdrop] at hat
    rw [pageBytes, ← hat, ← hdrop, List.take_append_drop]

/-! ## What `parse_page` accepts -/

lemma PageHeader.check_iff {h : PageHeader} : h.check = .ok () ↔
    (h.count ≠ 0 ∧ h.count ≤ ZMAX_COUNT) ∧ (h.groups ≠ 0 ∧ h.groups ≤ ZMAX_GROUPS) ∧
    (h.groups < 16 → h.stored >>> h.groups = 0)
    ∧ (h.ulen ≠ 0 ∧ 4 ∣ h.ulen) ∧ ZDIR_ENTRY * h.groups ≤ h.used ∧ h.used ≤ ZCAP := by
  unfold PageHeader.check
  constructor
  · intro hc
    split at hc
    · simp at hc
    split at hc
    · simp at hc
    split at hc
    · simp at hc
    split at hc
    · simp at hc
    split at hc
    · simp at hc
    rename_i hcount hgroups hstored hulen hused
    refine ⟨by omega, by omega, ?_, by omega, by omega, by omega⟩
    intro hlt
    by_contra hne
    exact hstored ⟨hlt, hne⟩
  · rintro ⟨hcount, hgroups, hstored, hulen, hused⟩
    rw [if_neg (by omega), if_neg (by omega), if_neg ?_, if_neg (by omega), if_neg (by omega)]
    rintro ⟨hlt, hne⟩
    exact hne (hstored hlt)

/-- The header of a page, word by word. -/
def headAt (page : Bytes) : PageHeader :=
  ⟨leNat (slice page P_FIRST (P_FIRST + 4)), half page P_COUNT, half page P_STORED,
    leNat (slice page P_ULEN (P_ULEN + 4)), half page P_USED,
    leNat (slice page P_GROUPS (P_GROUPS + 1))⟩

/-- The tag, the header's values and the zero byte are the header's bytes. -/
lemma headAt_iff {p : Bytes} {h : PageHeader} (hlen : p.length = ZPAGE) (hr : h.firstRank < 2 ^ 32)
    (hc : h.count < 2 ^ 16) (hs : h.stored < 2 ^ 16) (hu : h.ulen < 2 ^ 32) (hd : h.used < 2 ^ 16)
    (hg : h.groups < 2 ^ 8) :
    HasAt p 4 (headBytes h) ↔ leNat (slice p P_TAG (P_TAG + 4)) = ZTAG ∧ headAt p = h ∧
    p[P_ZERO]? = some 0 := by
  rw [ZPAGE] at hlen
  rw [headBytes]
  simp only [hasAt_append, List.length_append, length_leBytes, Nat.reduceAdd, hasAt_byte]
  rw [hasAt_leBytes (by omega) (by decide),
    hasAt_leBytes (by omega) (by simpa using hr), ← half_eq_iff (by omega) hc, ← half_eq_iff
    (by omega) hs, hasAt_leBytes (by omega) (by simpa using hu), ← half_eq_iff (by omega) hd,
    hasAt_leBytes (by omega) (by simpa using hg)]
  obtain ⟨r, c, s, u, d, g⟩ := h
  simp only [headAt, PageHeader.mk.injEq, P_TAG, P_FIRST, P_COUNT, P_STORED, P_ULEN, P_USED,
    P_GROUPS, P_ZERO, Nat.reduceAdd, and_assoc]

/-- **What `parse_page` checks.** -/
lemma parsePage_eq_ok {p : Bytes} {bind32 : BitVec 32} {v : PageView} :
    parsePage p bind32 = .ok v ↔ p.length = ZPAGE ∧ leNat (slice p P_CRC (P_CRC + 4))
      = (pageCrc p bind32).toNat ∧ leNat (slice p P_TAG (P_TAG + 4)) = ZTAG ∧ p[P_ZERO]? = some 0 ∧
      (headAt p).check = .ok ()
      ∧ ∃ spans pos, v = ⟨headAt p, p, ZHDR + ZDIR_ENTRY * (headAt p).groups, spans⟩
        ∧ keysFrom p (ZHDR + (headAt p).used) true ((headAt p).groups - 1)
            (ZHDR + ZDIR_ENTRY * (headAt p).groups) none = .ok (spans, pos)
        ∧ entriesFrom v (ZHDR + (headAt p).used) (headAt p).groups 0 (alignUp pos 4) 0 = .ok (headAt p).ulen
        ∧ (p.drop (ZHDR + (headAt p).used)).any (· ≠ 0) = false
        ∧ gapsFrom v (headAt p).groups 0 ((spans.getLast?.map Prod.snd).getD (ZHDR + ZDIR_ENTRY * (headAt p).groups))
            = .ok () := by
  rw [parsePage, viewWith]
  constructor
  · intro h
    split at h
    · simp at h
    rename_i hlen
    split at h
    · simp at h
    rename_i hcrc
    split at h
    · simp at h
    rename_i htag
    split at h
    · simp at h
    rename_i hzero
    rw [except_bind_eq_ok] at h
    obtain ⟨v', hv, h⟩ := h
    rw [← headAt] at hv
    simp only [if_true] at hv
    rw [except_bind_eq_ok] at hv
    obtain ⟨_, hcheck, hv⟩ := hv
    rw [except_bind_eq_ok] at hv
    obtain ⟨⟨spans, pos⟩, hkeys, hv⟩ := hv
    rw [except_bind_eq_ok] at hv
    obtain ⟨ulen, hentries, hv⟩ := hv
    split at hv
    · simp at hv
    rename_i hulen
    rw [Except.ok.injEq] at hv
    subst hv
    split at h
    · simp at h
    rename_i hpad
    rw [except_bind_eq_ok] at h
    obtain ⟨_, hgaps, h⟩ := h
    rw [Except.ok.injEq] at h
    subst h
    rw [not_not] at hlen hcrc htag hzero hulen
    refine ⟨hlen, hcrc, htag, hzero, hcheck, spans, pos, rfl, hkeys, ?_, by simpa using hpad, hgaps⟩
    rw [← hulen]
    exact hentries
  · rintro ⟨hlen, hcrc, htag, hzero, hcheck, spans, pos, rfl, hkeys, hentries, hpad, hgaps⟩
    rw [if_neg (not_not.mpr hlen), if_neg (not_not.mpr hcrc), if_neg (not_not.mpr htag),
      if_neg (not_not.mpr hzero), if_neg (not_not.mpr hlen), ← headAt]
    simp only [hcheck, bind, Except.bind, hkeys, if_true, hentries, ne_eq, not_true_eq_false,
      if_false]
    rw [if_neg (by rw [Bool.not_eq_true]; exact hpad), hgaps]

lemma ulenOf_le {gs : List PageGroup} (h : ∀ g ∈ gs, OwnOk g) :
    ulenOf gs ≤ gs.length * ZMAX_ULEN := by
  have hs := List.sum_le_card_nsmul (gs.map PageGroup.ulen) ZMAX_ULEN (by
    intro n hn
    rw [List.mem_map] at hn
    obtain ⟨g, hg, rfl⟩ := hn
    exact (h g hg).ulen.2.2)
  rwa [List.length_map, smul_eq_mul] at hs

lemma bodyBytes_tail {page : Bytes} (gs : List PageGroup) :
    ∀ {pos}, HasAt page pos (bodyBytes pos gs) →
      HasAt page (bodyEnd pos gs) (List.replicate (ZPAGE - bodyEnd pos gs) 0) := by
  induction gs with
  | nil => intro pos h; exact h
  | cons g gs ih =>
      intro pos h
      rw [bodyBytes, hasAt_append, List.length_append, List.length_replicate, ← Nat.add_assoc,
        Nat.add_sub_cancel' (le_alignUp pos (by omega))] at h
      exact ih h.2

lemma PageOk.own {gs : List PageGroup} (h : PageOk gs) : ∀ g ∈ gs, OwnOk g := by
  obtain ⟨g, rest, rfl⟩ := List.exists_cons_of_ne_nil h.ne
  exact (groupsOk_cons.mp h.groups).1

lemma PageOk.keys {gs : List PageGroup} (h : PageOk gs) :
    KeysAscend none ((gs.drop 1).map PageGroup.key) := by
  obtain ⟨g, rest, rfl⟩ := List.exists_cons_of_ne_nil h.ne
  exact keysAscend_weaken (groupsOk_cons.mp h.groups).2

lemma PageOk.stop_eq {gs : List PageGroup} (firstRank : BitVec 32) :
    ZHDR + (headerOf firstRank gs).used = bodyEnd (keysEnd gs) gs := by
  have h := le_bodyEnd gs (keysEnd gs)
  rw [headerOf]
  simp only
  rw [keysEnd] at *
  omega

lemma isStored_headerOf {gs : List PageGroup} (firstRank : BitVec 32)
    (hmost : gs.length ≤ ZMAX_GROUPS) (i : ℕ)
    (g : PageGroup) (hi : gs[i]? = some g) :
    g.stored = (headerOf firstRank gs).isStored (0 + i) := by
  obtain ⟨hlt, _⟩ := List.getElem?_eq_some_iff.mp hi
  rw [ZMAX_GROUPS] at hmost
  rw [PageHeader.isStored, headerOf]
  simp only
  rw [storedOf_testBit, Nat.zero_add, Nat.sub_zero, hi, decide_eq_true (show i < 16 by omega)]
  simp

/-- The header's bytes lie in the page of groups, and are read back. -/
lemma headAt_pageBytes {gs : List PageGroup} (h : PageOk gs) (firstRank : BitVec 32) {p : Bytes}
    (hlen : p.length = ZPAGE) : HasAt p 4 (headBytes (headerOf firstRank gs))
      ↔ leNat (slice p P_TAG (P_TAG + 4)) = ZTAG ∧ headAt p = headerOf firstRank gs ∧
      p[P_ZERO]? = some 0 := by
  have hmost := h.most
  have hcount := h.count
  have hu := ulenOf_le h.own
  have hs := storedOf_lt gs
  have hp : 2 ^ gs.length ≤ 2 ^ 16 := Nat.pow_le_pow_right (by omega)
    (by rwa [ZMAX_GROUPS] at hmost)
  have hf := h.fits
  rw [ZMAX_GROUPS] at hmost
  rw [ZMAX_COUNT] at hcount
  rw [ZMAX_ULEN] at hu
  rw [ZPAGE] at hf
  have hu' : gs.length * (64 * 1024) ≤ 16 * (64 * 1024) := Nat.mul_le_mul_right _ hmost
  refine headAt_iff hlen firstRank.isLt ?_ ?_ ?_ ?_ ?_
  · rw [headerOf]
    simp only
    omega
  · rw [headerOf]
    simp only
    omega
  · rw [headerOf]
    simp only
    omega
  · rw [headerOf]
    simp only
    omega
  · rw [headerOf]
    simp only
    omega

/-- The loops over the directory accept the page of groups. -/
lemma entriesFrom_viewOf {gs : List PageGroup} (h : PageOk gs) (firstRank bind32 : BitVec 32) :
    entriesFrom (viewOf firstRank gs bind32)
        (bodyEnd (keysEnd gs) gs) gs.length 0 (alignUp (keysEnd gs) 4) 0 = .ok (ulenOf gs)
      ∧ gapsFrom (viewOf firstRank gs bind32) gs.length 0 (keysEnd gs) = .ok ()
      ∧ ∀ i g, gs[i]? = some g →
          ((viewOf firstRank gs bind32).entryRaw i).1 ≤ (viewOf firstRank gs bind32).firstOf (i + 1)
            ∧ ((viewOf firstRank gs bind32).entryRaw i).2.1 + ((viewOf firstRank gs bind32).entryRaw i).2.2.1 ≤ ZPAGE
            ∧ (viewOf firstRank gs bind32).groupAt i g.key = g := by
  obtain ⟨hlen, _, _, hdir, _, hbody⟩ :=
    (pageBytes_pieces (headerOf firstRank gs) bind32 _ h.fits).mp rfl
  have hg := entriesFrom_of_groups (v := viewOf firstRank gs bind32) hlen h.fits h.most h.count gs 0
    0 (keysEnd gs) 0 (Nat.zero_add _) h.own (by rw [Nat.zero_mul]; exact hdir) hbody
    (Nat.zero_add _) rfl (isStored_headerOf firstRank h.most) (by omega) (by omega)
  simp only [Nat.zero_add] at hg
  exact ⟨hg.1, hg.2.1, hg.2.2.2⟩

/-- **The page of groups is accepted**, and its view is theirs. -/
lemma parsePage_pageBytes {gs : List PageGroup} (h : PageOk gs) (firstRank bind32 : BitVec 32) :
    parsePage (pageBytes (headerOf firstRank gs) gs bind32) bind32
    = .ok (viewOf firstRank gs bind32) := by
  obtain ⟨hlen, hcrc, hhead, _, hkeys, hbody⟩ :=
    (pageBytes_pieces (headerOf firstRank gs) bind32 _ h.fits).mp rfl
  obtain ⟨htag, hheader, hzero⟩ := (headAt_pageBytes h firstRank hlen).mp hhead
  obtain ⟨hentries, hgaps, _⟩ := entriesFrom_viewOf h firstRank bind32
  have hke : keysEnd gs = ZHDR + ZDIR_ENTRY * gs.length +
    (keysRun ((gs.drop 1).map PageGroup.key)).length := by
    rw [keysEnd, keyBytes_eq]
  have hle := le_bodyEnd gs (keysEnd gs)
  have hfit := h.fits
  rw [parsePage_eq_ok, hheader, PageOk.stop_eq, show (headerOf firstRank gs).groups
    = gs.length from rfl]
  refine ⟨hlen, ?_, htag, hzero, h.check firstRank, _, keysEnd gs, rfl, ?_, hentries, ?_, ?_⟩
  · rw [HasAt, length_leBytes] at hcrc
    rw [P_CRC, hcrc, leNat_leBytes (by simpa using (pageCrc _ bind32).isLt)]
  · refine (keysFrom_iff (by rw [hlen]; exact hfit) _ (by omega)).mpr
      ⟨(gs.drop 1).map PageGroup.key, ?_, h.keys, hkeys, hke, hle, rfl⟩
    rw [List.length_map, List.length_drop]
  · have htail := bodyBytes_tail gs hbody
    rw [hasAt_zeros hfit (by rw [hlen]), slice_eq_take_drop, List.take_of_length_le (by
      rw [List.length_drop, hlen])] at htail
    exact htail
  · rw [spansFrom_last, ← hke]
    exact hgaps

/-- **The view of the page of groups names them**, group 0's key the one it is given. -/
lemma pageGroups_viewOf {g : PageGroup} {gs : List PageGroup} (h : PageOk (g :: gs))
    (firstRank bind32 : BitVec 32)
    (key0 : Bytes) : (viewOf firstRank (g :: gs) bind32).pageGroups key0
    = some ({ g with key := key0 } :: gs) := by
  obtain ⟨hlen, _, _, _, hkeys, _⟩ :=
    (pageBytes_pieces (headerOf firstRank (g :: gs)) bind32 _ h.fits).mp rfl
  obtain ⟨_, _, hat⟩ := entriesFrom_viewOf h firstRank bind32
  have hle := le_bodyEnd (g :: gs) (keysEnd (g :: gs))
  have hfit := h.fits
  rw [PageView.pageGroups, show (viewOf firstRank (g :: gs) bind32).header.groups
    = (({ g with key := key0 } :: gs : List PageGroup)).length from rfl]
  refine groupsFrom_eq _ ?_
  intro i x hi
  rw [Nat.zero_add]
  cases i with
  | zero =>
      rw [List.getElem?_cons_zero, Option.some.injEq] at hi
      obtain ⟨h1, h2, h3⟩ := hat 0 g rfl
      rw [pageGroup_eq (by exact Nat.succ_pos _) h1 (by rw [← hlen] at h2; exact h2) rfl, ← hi]
      have h4 := congrArg (fun y : PageGroup => { y with key := key0 }) h3
      exact congrArg some h4
  | succ i =>
      rw [List.getElem?_cons_succ] at hi
      obtain ⟨h1, h2, h3⟩ := hat (i + 1) x (by rwa [List.getElem?_cons_succ])
      have hlt : i + 1 < (viewOf firstRank (g :: gs) bind32).header.groups := by
        obtain ⟨hlt, _⟩ := List.getElem?_eq_some_iff.mp hi
        exact Nat.succ_lt_succ hlt
      have hk : (viewOf firstRank (g :: gs) bind32).key (i + 1) = some x.key := by
        obtain ⟨s, hs, hget⟩ := spansFrom_get _ hkeys (by
          rw [hlen, ← keyBytes_eq]
          exact le_trans hle hfit) (by
          rw [List.drop_one, List.tail_cons, List.getElem?_map, hi]
          rfl)
        rw [PageView.key, if_neg (by omega), Nat.add_sub_cancel]
        rw [viewOf, hs]
        exact hget
      rw [pageGroup_eq hlt h1 (by rw [← hlen] at h2; exact h2) (by rw [if_neg (Nat.succ_ne_zero i)]; exact hk), h3]

/-- The stored bits of a page's header are its groups'. -/
lemma storedOf_eq {gs : List PageGroup} {h : PageHeader} (hs : h.stored < 2 ^ 16)
    (hbits : h.groups < 16 → h.stored >>> h.groups = 0) (hlen : gs.length = h.groups)
    (hmost : h.groups ≤ ZMAX_GROUPS)
    (hst : ∀ i g, gs[i]? = some g → g.stored = h.isStored (0 + i)) : storedOf 0 gs = h.stored := by
  rw [ZMAX_GROUPS] at hmost
  apply Nat.eq_of_testBit_eq
  intro i
  rw [storedOf_testBit, Nat.sub_zero]
  simp only [Nat.zero_le, decide_true, Bool.true_and]
  cases hi : gs[i]? with
  | some g =>
      obtain ⟨hlt, _⟩ := List.getElem?_eq_some_iff.mp hi
      rw [Option.map_some, Option.getD_some, hst i g hi, PageHeader.isStored, Nat.zero_add,
        decide_eq_true (show i < 16 by omega), Bool.true_and]
  | none =>
      rw [List.getElem?_eq_none_iff] at hi
      rw [Option.map_none, Option.getD_none]
      symm
      rcases Nat.lt_or_ge h.groups 16 with hlt | hge
      · have hz := congrArg (fun n => n.testBit (i - h.groups)) (hbits hlt)
        simp only [Nat.testBit_shiftRight, Nat.zero_testBit] at hz
        rwa [Nat.add_sub_cancel' (by omega)] at hz
      · exact Nat.testBit_lt_two_pow (lt_of_lt_of_le hs (Nat.pow_le_pow_right (by omega) (by omega)))

/-- **What is accepted is the page of groups**, its view theirs; group 0's key may be any below
group 1's. -/
lemma groups_of_parsePage {p : Bytes} {bind32 : BitVec 32} {v : PageView}
    (h : parsePage p bind32 = .ok v) {key0 : Bytes} (hkey : ∀ k ∈ v.key 1, keyCmp key0 k = .lt) :
    ∃ g gs, g.key = key0 ∧ PageOk (g :: gs) ∧ p = pageBytes v.header (g :: gs) bind32
      ∧ v = viewOf (BitVec.ofNat 32 v.header.firstRank) (g :: gs) bind32 := by
  obtain ⟨hlen, hcrc, htag, hzero, hcheck, spans, pos, hv, hkeys, hentries, hpad, hgaps⟩ :=
    parsePage_eq_ok.mp h
  obtain ⟨hcount, hgroups, hbits, hulen, hdir, hused⟩ := PageHeader.check_iff.mp hcheck
  have hstop : ZHDR + (headAt p).used ≤ ZPAGE := by
    rw [ZCAP, ZHDR, ZPAGE] at *
    omega
  obtain ⟨ks, hks, hkok, hkat, rfl, hpos, rfl⟩ :=
    (keysFrom_iff (by rw [hlen]; exact hstop) _ (by omega)).mp hkeys
  rw [spansFrom_last] at hgaps
  have htail : HasAt v.page (ZHDR + (headAt p).used)
    (List.replicate (ZPAGE - (ZHDR + (headAt p).used)) 0) := by
    rw [hv]
    simp only
    rw [hasAt_zeros hstop (by rw [hlen]), slice_eq_take_drop,
      List.take_of_length_le (by rw [List.length_drop, hlen])]
    exact hpad
  have hn : (key0 :: ks).length = (headAt p).groups := by
    rw [List.length_cons, hks]
    omega
  have hheader : v.header = headAt p := by rw [hv]
  have hpage : v.page = p := by rw [hv]
  have hfirst0 : v.firstOf 0 = 0 := by
    rw [← hn] at hentries
    rw [PageView.firstOf, hheader, if_pos (by omega)]
    exact (entriesFrom_succ.mp hentries).2.1 rfl
  rw [← hn] at hentries hgaps
  obtain ⟨gs, hgk, hown, hdirb, hbody, hu, hsum, hbe, hst, _⟩ :=
    groups_of_entriesFrom (by rw [hpage]; exact hlen) hstop htail (by rw [hheader]; exact hgroups.2)
      (key0 :: ks) (by rw [hheader, Nat.zero_add, hn]) (by omega) (by simp) hentries hgaps
  obtain ⟨g, gs, rfl⟩ : ∃ g gs', gs = g :: gs' := by
    cases gs with
    | nil => simp at hgk
    | cons g gs => exact ⟨g, gs, rfl⟩
  rw [List.map_cons, List.cons.injEq] at hgk
  obtain ⟨rfl, rfl⟩ := hgk
  have hglen : (g :: gs).length = (headAt p).groups := by
    rw [← hn, List.length_cons, List.length_cons, List.length_map]
  have hke : keysEnd (g :: gs)
      = ZHDR + ZDIR_ENTRY * (headAt p).groups + (keysRun (gs.map PageGroup.key)).length := by
    rw [keysEnd, List.drop_one, List.tail_cons, keyBytes_eq, hglen]
  rw [hn, ← hke] at hbody hbe hdirb
  rw [hfirst0, Nat.zero_mul, Nat.add_zero, hpage] at hdirb
  rw [hfirst0, Nat.zero_add, hheader] at hsum
  rw [Nat.zero_add] at hu
  rw [hpage] at hbody
  -- the key of group 1 is what the view hands out
  have hkeysAscend : KeysAscend (some g.key) (gs.map PageGroup.key) := by
    cases gs with
    | nil => exact trivial
    | cons x rest =>
        obtain ⟨hne, hlt, _, hok⟩ := hkok
        refine ⟨hne, hlt, ?_, hok⟩
        rintro k' hk'
        rw [Option.mem_some_iff] at hk'
        rw [← hk']
        refine hkey x.key ?_
        obtain ⟨s, hs, hget⟩ := spansFrom_get _ hkat (by rw [hlen]; omega)
          (show ((x :: rest).map PageGroup.key)[0]? = some x.key from rfl)
        rw [Option.mem_def, PageView.key, if_neg (by rw [hheader, ← hglen]; simp), hv]
        simp only [Nat.sub_self]
        rw [hs]
        exact hget
  have hok : PageOk (g :: gs) := by
    refine ⟨by simp, by rw [hglen]; exact hgroups.2, groupsOk_cons.mpr ⟨hown, hkeysAscend⟩, ?_, ?_⟩
    · rw [hsum]
      exact hcount.2
    · rw [hbe]
      exact hstop
  have hh : headerOf (BitVec.ofNat 32 (headAt p).firstRank) (g :: gs) = headAt p := by
    have hr : (headAt p).firstRank < 2 ^ 32 := by
      have h4 := leNat_lt (slice p P_FIRST (P_FIRST + 4))
      rw [length_slice_of_le (by rw [hlen, P_FIRST, ZPAGE]; omega), Nat.add_sub_cancel_left] at h4
      exact h4
    have hs := storedOf_eq (half_lt p P_STORED) hbits hglen hgroups.2 (by
      intro i x hi
      rw [hst i x hi, hheader])
    rw [headerOf, BitVec.toNat_ofNat, Nat.mod_eq_of_lt hr, hsum, hs, ← hu, hglen, hbe,
      Nat.add_sub_cancel_left]
  have hp : p = pageBytes (headAt p) (g :: gs) bind32 := by
    refine (pageBytes_pieces (headAt p) bind32 p hok.fits).mpr ⟨hlen, ?_, ?_, hdirb, ?_, hbody⟩
    · rw [hasAt_leBytes (by rw [hlen, ZPAGE]; omega) (by simpa using (pageCrc p bind32).isLt)]
      exact hcrc
    · have hhead := (headAt_pageBytes hok (BitVec.ofNat 32 (headAt p).firstRank) hlen).mpr ⟨htag, hh.symm, hzero⟩
      rwa [hh] at hhead
    · rw [hglen]
      exact hkat
  refine ⟨g, gs, rfl, hok, by rw [hheader]; exact hp, ?_⟩
  rw [hheader, viewOf, hh, ← hp, hglen, hv]
  rfl

/-- Every key a page holds is above the empty key. -/
lemma keyCmp_nil_of_parsePage {p : Bytes} {bind32 : BitVec 32} {v : PageView}
    (h : parsePage p bind32 = .ok v) : ∀ k ∈ v.key 1, keyCmp [] k = .lt := by
  obtain ⟨hlen, _, _, _, hcheck, spans, pos, hv, hkeys, _, _, _⟩ := parsePage_eq_ok.mp h
  obtain ⟨_, _, _, _, hdir, hused⟩ := PageHeader.check_iff.mp hcheck
  have hstop : ZHDR + (headAt p).used ≤ p.length := by
    rw [hlen]
    rw [ZCAP, ZHDR, ZPAGE] at *
    omega
  obtain ⟨ks, _, hkok, hkat, rfl, hpos, rfl⟩ := (keysFrom_iff hstop _ (by omega)).mp hkeys
  intro k hk
  rw [Option.mem_def, PageView.key] at hk
  split at hk
  · simp at hk
  rw [Option.bind_eq_bind, Option.bind_eq_some_iff] at hk
  obtain ⟨s, hs, hget⟩ := hk
  cases ks with
  | nil =>
      rw [hv, spansFrom] at hs
      simp at hs
  | cons x rest =>
      obtain ⟨s', hs', hget'⟩ := spansFrom_get _ hkat (by omega) (show (x :: rest)[0]? = some x from rfl)
      rw [hv] at hs hget
      simp only [Nat.sub_self] at hs hget
      rw [hs', Option.some.injEq] at hs
      rw [← hs, hget', Option.some.injEq] at hget
      obtain ⟨b, bs, hb⟩ := List.exists_cons_of_ne_nil hkok.1
      rw [← hget, hb, keyCmp, if_neg (by simp)]
      exact (cmp_eq_lt_iff _ _).mpr (List.nil_lt_cons b bs)

/-- **The page format is exact.**  The page `encode_page` writes is accepted, and its view names the
groups it was given; and what is accepted is the page `encode_page` writes of the groups its view
names, whatever key below group 1's group 0 is given.  Two accepted pages that name the same groups
are the same page. -/
theorem page_exact (bind32 : BitVec 32) :
    (∀ firstRank gs p h, encodePage firstRank gs bind32 = .ok (p, h) →
      ∃ v, parsePage p bind32 = .ok v ∧ v.header = h ∧ v.header.firstRank = firstRank.toNat
        ∧ ∀ key0, v.pageGroups key0 = some (gs.modifyHead (fun g => { g with key := key0 })))
    ∧ (∀ p v key0, parsePage p bind32 = .ok v → (∀ k ∈ v.key 1, keyCmp key0 k = .lt) →
      ∃ gs, v.pageGroups key0 = some gs ∧ gs.head?.map PageGroup.key = some key0
        ∧ encodePage (BitVec.ofNat 32 v.header.firstRank) gs bind32 = .ok (p, v.header))
    ∧ ∀ p p' v v' key0, parsePage p bind32 = .ok v → parsePage p' bind32 = .ok v' →
      v.header.firstRank = v'.header.firstRank → v.pageGroups key0 = v'.pageGroups key0 →
      p = p' := by
  have hback : ∀ p v key0, parsePage p bind32 = .ok v → (∀ k ∈ v.key 1, keyCmp key0 k = .lt) →
      ∃ g gs, g.key = key0 ∧ v.pageGroups key0 = some (g :: gs)
        ∧ encodePage (BitVec.ofNat 32 v.header.firstRank) (g :: gs) bind32 = .ok (p, v.header) := by
    intro p v key0 hp hkey
    obtain ⟨g, gs, rfl, hok, hbytes, hview⟩ := groups_of_parsePage hp hkey
    refine ⟨g, gs, rfl, ?_, ?_⟩
    · rw [hview]
      exact pageGroups_viewOf hok _ _ _
    · refine encodePage_iff.mpr ⟨hok, ?_, hbytes⟩
      conv_lhs => rw [hview]
      rfl
  refine ⟨?_, ?_, ?_⟩
  · intro firstRank gs p h he
    obtain ⟨hok, rfl, rfl⟩ := encodePage_iff.mp he
    obtain ⟨g, gs, rfl⟩ := List.exists_cons_of_ne_nil hok.ne
    refine ⟨viewOf firstRank (g :: gs) bind32, parsePage_pageBytes hok firstRank bind32,
      rfl, rfl, ?_⟩
    intro key0
    exact pageGroups_viewOf hok firstRank bind32 key0
  · intro p v key0 hp hkey
    obtain ⟨g, gs, hk, hgs, henc⟩ := hback p v key0 hp hkey
    exact ⟨g :: gs, hgs, congrArg some hk, henc⟩
  · intro p p' v v' key0 hp hp' hr hgs
    obtain ⟨g, gs, hg, hok, hbytes, hview⟩ := groups_of_parsePage hp (keyCmp_nil_of_parsePage hp)
    obtain ⟨g', gs', hg', hok', hbytes', hview'⟩ :=
      groups_of_parsePage hp' (keyCmp_nil_of_parsePage hp')
    rw [hview, hview', pageGroups_viewOf hok, pageGroups_viewOf hok', Option.some.injEq,
      List.cons.injEq] at hgs
    obtain ⟨hgg, rfl⟩ := hgs
    obtain rfl : g = g' := by
      obtain ⟨c, pl, u, st, co, k⟩ := g
      obtain ⟨c', pl', u', st', co', k'⟩ := g'
      simp only [PageGroup.mk.injEq, and_true] at hgg hg hg'
      obtain ⟨rfl, rfl, rfl, rfl, rfl⟩ := hgg
      rw [hg, hg']
    have hheader : v.header = v'.header := by
      rw [hview, hview', hr]
    rw [hbytes, hbytes', hheader]

/-- A stored group and a coded one, on one page, and back. -/
theorem page_exact_run :
    ∃ p h v, encodePage 5 [⟨1, [1, 2, 3, 4], 4, true, false, [7]⟩, ⟨2, [9], 8, false, true, [8]⟩] 3
      = .ok (p, h) ∧ parsePage p 3 = .ok v
      ∧ encodePage 5 [⟨1, [1, 2, 3, 4], 4, true, false, []⟩, ⟨2, [9], 8, false, true, [8]⟩] 3
      = .ok (p, v.header) := by
  have hok : PageOk [⟨1, [1, 2, 3, 4], 4, true, false, [7]⟩, ⟨2, [9], 8, false, true, [8]⟩] :=
    ⟨by simp, by decide, ⟨by decide, by decide, trivial⟩, by decide, by decide⟩
  obtain ⟨v, hparse, hheader, hrank, hgroups⟩ :=
    (page_exact 3).1 5 _ _ _ (encodePage_iff.mpr ⟨hok, rfl, rfl⟩)
  refine ⟨_, _, v, encodePage_iff.mpr ⟨hok, rfl, rfl⟩, hparse, ?_⟩
  obtain ⟨gs, hgs, _, henc⟩ := (page_exact 3).2.1 _ v [] hparse (keyCmp_nil_of_parsePage hparse)
  rw [hgroups, Option.some.injEq] at hgs
  rw [← hgs, hrank] at henc
  exact henc

end Supdb

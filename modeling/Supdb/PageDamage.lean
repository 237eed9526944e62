import Supdb.RecordTrap

/-!
# A damaged form page

A page is read out of a file and may be kept for long, so every byte of it can be anything; what has
to hold is that damage costs an error and never the process.

* **`viewWithRun_eq`** – over the words of a machine the view is the page format's, of every string.
* `groupRun_eq`, `keyRun_eq`, `payloadRun_eq`, `groupOfIndexRun_post`, `groupOfKeyRun_post` – so is
  what it hands out.
* `checkCodedGroupRun_eq`, `checkGroupRun_eq` – and what is checked of a group.
* **`decodeGroupWithRun_safe_iff`** – a decode traps over one kind of group and no other: a stored
  one that has to be copied, with a payload that is not as long as the group (`TornGroup`).
* **`pageView_returns`** – the view that checks the directory hands out none.
* **`page_returns_iff`** – the trusted view hands one out exactly for the pages that are `Torn`.
-/

namespace Supdb

open StorageLib Run

namespace Zpages

/-! ## Words of a page -/

lemma headerRun_eq {page : Bytes} (hlen : page.length = ZPAGE) :
    headerRun page = ok (headAt page) := by
  rw [ZPAGE] at hlen
  have hle : ∀ {n pos : ℕ}, pos + n ≤ 4096 →
    leAt n page pos = ok (leNat (slice page pos (pos + n))) :=
    fun h => leAt_eq (by omega) (by omega)
  rw [headerRun, hle (by decide), ok_bind, hle (by decide), ok_bind, hle (by decide), ok_bind,
    hle (by decide), ok_bind, hle (by decide), ok_bind, hle (by decide), ok_bind, headAt]
  rfl

namespace View

variable {v : View} {pv : PageView}

lemma entryRawRun_eq {j : ℕ} (hpage : v.page = pv.page) (hlen : pv.page.length = ZPAGE)
    (hj : ZHDR + ZDIR_ENTRY * (j + 1) ≤ ZPAGE) : v.entryRawRun j = ok (pv.entryRaw j) := by
  rw [ZHDR, ZDIR_ENTRY, ZPAGE] at hj
  rw [ZPAGE] at hlen
  have hle : ∀ {d : ℕ}, d + 2 ≤ 8 → leAt 2 pv.page (ZHDR + j * ZDIR_ENTRY + d)
    = ok (half pv.page (ZHDR + j * ZDIR_ENTRY + d)) := by
    intro d hd
    refine leAt_half ?_ (by omega)
    rw [ZHDR, ZDIR_ENTRY]
    omega
  rw [entryRawRun, mulU_eq (by rw [ZDIR_ENTRY]; omega), ok_bind,
    addU_eq (by rw [ZHDR, ZDIR_ENTRY]; omega), ok_bind,
    hpage, hle (by decide), ok_bind, hle (by decide), ok_bind, hle (by decide), ok_bind,
    hle (by decide), ok_bind]
  rfl

/-! ## Where the keys lie -/

/-- The key of group `j` said to lie at `s`. -/
def setSpan (v : View) (j : ℕ) (s : ℕ × ℕ) : View :=
  { v with keyAt := v.keyAt.set j s.1, keyEnd := v.keyEnd.set j s.2 }

/-- The keys of the groups from `j` on said to lie at `spans`. -/
def withSpans : View → ℕ → List (ℕ × ℕ) → View
  | v, _, [] => v
  | v, j, s :: spans => withSpans (v.setSpan j s) (j + 1) spans

/-- The view a machine holds of a page. -/
def of (pv : PageView) : View :=
  withSpans ⟨pv.header, pv.page, pv.keysAt, List.replicate ZMAX_GROUPS 0,
    List.replicate ZMAX_GROUPS 0⟩ 1 pv.keySpans

lemma withSpans_fields (spans : List (ℕ × ℕ)) : ∀ (v : View) (j : ℕ), (v.withSpans j spans).header
    = v.header ∧ (v.withSpans j spans).page = v.page ∧ (v.withSpans j spans).keyAt.length
    = v.keyAt.length ∧ (v.withSpans j spans).keyEnd.length = v.keyEnd.length := by
  induction spans with
  | nil => exact fun v j => ⟨rfl, rfl, rfl, rfl⟩
  | cons s spans ih =>
      intro v j
      obtain ⟨hheader, hpage, hat, hend⟩ := ih (v.setSpan j s) (j + 1)
      rw [withSpans, hheader, hpage, hat, hend]
      simp [setSpan]

lemma withSpans_before (spans : List (ℕ × ℕ)) : ∀ (v : View) {i j : ℕ}, i < j →
    (v.withSpans j spans).keyAt[i]? = v.keyAt[i]? ∧
    (v.withSpans j spans).keyEnd[i]? = v.keyEnd[i]? := by
  induction spans with
  | nil => exact fun v i j _ => ⟨rfl, rfl⟩
  | cons s spans ih =>
      intro v i j hi
      obtain ⟨hat, hend⟩ := ih (v.setSpan j s) (Nat.lt_succ_of_lt hi)
      rw [withSpans, hat, hend, setSpan]
      exact ⟨List.getElem?_set_ne (by omega), List.getElem?_set_ne (by omega)⟩

lemma withSpans_at (spans : List (ℕ × ℕ)) : ∀ (v : View) {j k : ℕ} {s : ℕ × ℕ}, spans[k]? = some s →
    j + k < v.keyAt.length → j + k < v.keyEnd.length →
    (v.withSpans j spans).keyAt[j + k]? = some s.1 ∧ (v.withSpans j spans).keyEnd[j + k]?
    = some s.2 := by
  induction spans with
  | nil => intro v j k s hs; simp at hs
  | cons s0 spans ih =>
      intro v j k s hs hat hend
      rw [withSpans]
      cases k with
      | zero =>
          rw [List.getElem?_cons_zero, Option.some.injEq] at hs
          subst hs
          obtain ⟨h1, h2⟩ := withSpans_before spans (v.setSpan j s0) (Nat.lt_add_one j)
          simp only [Nat.add_zero]
          rw [h1, h2, setSpan]
          exact ⟨List.getElem?_set_self hat, List.getElem?_set_self hend⟩
      | succ k =>
          rw [List.getElem?_cons_succ] at hs
          have h := ih (v.setSpan j s0) (j := j + 1) hs (by simp [setSpan]; omega) (by simp [setSpan]; omega)
          rwa [show j + 1 + k = j + (k + 1) by omega] at h

lemma keyRun_of_spans {j lo hi : ℕ} (hj : j ≠ 0) (hg : j < v.header.groups)
    (hat : v.keyAt[j]? = some lo)
    (hend : v.keyEnd[j]? = some hi) : v.keyRun j = ok (getRange v.page lo hi) := by
  rw [keyRun, if_neg (by omega), index, hat, index, hend]
  rfl

lemma storeSpanRun_eq {j lo hi : ℕ} (hat : j < v.keyAt.length) (hend : j < v.keyEnd.length)
    (hlo : lo < 2 ^ 16)
    (hhi : hi < 2 ^ 16) : v.storeSpanRun j lo hi = ok (v.setSpan j (lo, hi)) := by
  rw [storeSpanRun, store_eq _ hat, ok_bind, store_eq _ hend, ok_bind, Nat.mod_eq_of_lt hlo,
    Nat.mod_eq_of_lt hhi]
  rfl

lemma keyRun_setSpan_self {j lo hi : ℕ} (hj : j ≠ 0) (hg : j < v.header.groups)
    (hat : j < v.keyAt.length)
    (hend : j < v.keyEnd.length) : (v.setSpan j (lo, hi)).keyRun j = ok (getRange v.page lo hi) :=
  keyRun_of_spans hj hg (List.getElem?_set_self hat) (List.getElem?_set_self hend)

lemma keyRun_setSpan_ne {i j : ℕ} (s : ℕ × ℕ) (h : j ≠ i) :
    (v.setSpan j s).keyRun i = v.keyRun i := by
  rw [keyRun, keyRun, index, index, index, index, setSpan]
  simp only [List.getElem?_set_ne h]

end View

open View

/-- **The loop over the keys** is the page format's, and leaves where each lies in the two arrays.
-/
lemma keySpansRun_eq {stop : ℕ} {checked : Bool} (hstop : stop ≤ ZPAGE) (n : ℕ) :
    ∀ {j pos : ℕ} {v : View} {prev : Option Bytes}, v.page.length = ZPAGE → pos ≤ stop → j ≠ 0 →
      j + n ≤ v.header.groups → j + n ≤ v.keyAt.length → j + n ≤ v.keyEnd.length →
      (j = 1 → prev = none) → (1 < j → ∃ p, prev = some p ∧ v.keyRun (j - 1) = ok (some p)) →
      keySpansRun stop checked n j pos v
        = (Run.ofExcept (keysFrom v.page stop checked n pos prev) >>= fun r => ok (v.withSpans j r.1, r.2)) := by
  rw [ZPAGE] at hstop
  induction n with
  | zero => exact fun _ _ _ _ _ _ _ _ => rfl
  | succ n ih =>
      intro j pos v prev hlen hpos hj hg hat hend hfirst hprev
      rw [ZPAGE] at hlen
      rw [keySpansRun, keysFrom, addU_eq (by omega), ok_bind]
      by_cases hpast : stop < pos + 2
      · rw [if_pos hpast, if_pos hpast]
        rfl
      rw [if_neg hpast, if_neg hpast, leAt_half (by omega) (by omega), ok_bind]
      have hhalf := half_lt v.page pos
      rw [addU_eq (by omega), ok_bind]
      dsimp only
      generalize half v.page pos = klen at hhalf ⊢
      by_cases hbad : klen = 0 ∨ stop < pos + 2 + klen
      · rw [if_pos hbad, if_pos hbad]
        rfl
      have hkey : getRange v.page (pos + 2) (pos + 2 + klen) = some (slice v.page (pos + 2) (pos + 2 + klen)) :=
        getRange_eq_some.mpr ⟨by omega, by omega, rfl⟩
      rw [if_neg hbad, if_neg hbad, storeSpanRun_eq (by omega) (by omega) (by omega) (by omega), ok_bind]
      set v' := v.setSpan j (pos + 2, pos + 2 + klen) with hv'
      set key := slice v.page (pos + 2) (pos + 2 + klen) with hk
      have hasc : ascendsRun v' checked j (pos + 2) (pos + 2 + klen)
          = ok (decide (¬(checked = true ∧ ∃ prev' ∈ prev, keyCmp prev' key ≠ .lt))) := by
        rw [ascendsRun]
        by_cases hc : checked = true ∧ 1 < j
        · obtain ⟨p, hp, hrun⟩ := hprev hc.2
          have hcut : (cut v'.page (pos + 2) (pos + 2 + klen) : Run ZError Bytes) = ok key := by
            rw [cut, show v'.page = v.page from rfl, hkey]
          rw [if_pos hc, hv', keyRun_setSpan_ne _ (by omega), hrun, ok_bind, ← hv', hcut, ok_bind, hp, hc.1]
          simp
        · rw [if_neg hc]
          congr 1
          rw [eq_comm, decide_eq_true_eq]
          rintro ⟨hch, p, hp, -⟩
          have hle : ¬1 < j := fun h => hc ⟨hch, h⟩
          rw [hfirst (by omega)] at hp
          simp at hp
      rw [hasc, ok_bind]
      by_cases hdesc : checked = true ∧ ∃ prev' ∈ prev, keyCmp prev' key ≠ .lt
      · rw [if_pos hdesc, if_neg (by rw [decide_eq_true_eq]; exact not_not_intro hdesc)]
        rfl
      · rw [if_neg hdesc, if_pos (by rw [decide_eq_true_eq]; exact hdesc)]
        have hself : v'.keyRun j = ok (some key) := by
          rw [hv', keyRun_setSpan_self hj (by omega) (by omega) (by omega), hkey]
        have hgroups : j + 1 + n ≤ v'.header.groups := by
          change j + 1 + n ≤ v.header.groups
          omega
        have hats : j + 1 + n ≤ v'.keyAt.length := by
          rw [hv', setSpan, List.length_set]
          omega
        have hends : j + 1 + n ≤ v'.keyEnd.length := by
          rw [hv', setSpan, List.length_set]
          omega
        have hlen' : v'.page.length = ZPAGE := hlen
        rw [ih hlen' (by omega) (by omega) hgroups hats hends (by omega) (fun _ => ⟨key, rfl, hself⟩),
          show v'.page = v.page from rfl]
        cases keysFrom v.page stop checked n (pos + 2 + klen) (some key) with
        | error e => rfl
        | ok r => rfl

/-! ## The directory -/

/-- What `view_with` makes sure of in every view it returns: a whole page, a directory inside it,
and as many keys as there are groups behind the first. -/
structure Viewed (pv : PageView) : Prop where
  length : pv.page.length = ZPAGE
  header : pv.header = headAt pv.page
  check : pv.header.check = .ok ()
  spans : pv.keySpans.length = pv.header.groups - 1

variable {pv : PageView}

lemma Viewed.groups_le (h : Viewed pv) : 0 < pv.header.groups ∧ pv.header.groups ≤ 16
    ∧ ZHDR + ZDIR_ENTRY * pv.header.groups ≤ ZPAGE := by
  obtain ⟨-, hgroups, -, -, hdir, hcap⟩ := PageHeader.check_iff.mp h.check
  rw [ZMAX_GROUPS] at hgroups
  rw [ZCAP, ZPAGE, ZHDR] at hcap
  refine ⟨by omega, by omega, ?_⟩
  rw [ZPAGE, ZHDR]
  omega

lemma keysFrom_length {page : Bytes} {stop : ℕ} {checked : Bool} (n : ℕ) :
    ∀ {pos : ℕ} {prev : Option Bytes} {r : List (ℕ × ℕ) × ℕ}, keysFrom page stop checked n pos prev
      = .ok r → r.1.length = n ∧ (pos ≤ stop → r.2 ≤ stop) := by
  induction n with
  | zero =>
      intro pos prev r h
      rw [keysFrom, Except.ok.injEq] at h
      subst h
      exact ⟨rfl, id⟩
  | succ n ih =>
      intro pos prev r h
      rw [keysFrom] at h
      split at h
      · simp at h
      dsimp only at h
      split at h
      · simp at h
      rename_i hbad
      split at h
      · simp at h
      rw [except_bind_eq_ok] at h
      obtain ⟨r', hr', h⟩ := h
      rw [Except.ok.injEq] at h
      subst h
      obtain ⟨hlen, hle⟩ := ih hr'
      refine ⟨by rw [List.length_cons, hlen], fun _ => hle (by omega)⟩

/-- What a view was made of. -/
lemma viewWith_eq_ok {page : Bytes} {checked : Bool} (h : viewWith page checked = .ok pv) :
    page.length = ZPAGE ∧ (headAt page).check = .ok () ∧ ∃ r,
      keysFrom page (ZHDR + (headAt page).used) checked ((headAt page).groups - 1)
          (ZHDR + ZDIR_ENTRY * (headAt page).groups) none = .ok r
        ∧ pv = ⟨headAt page, page, ZHDR + ZDIR_ENTRY * (headAt page).groups, r.1⟩
        ∧ (checked = true → ∃ u, entriesFrom pv (ZHDR + (headAt page).used) (headAt page).groups 0 (alignUp r.2 4) 0
            = .ok u) := by
  rw [viewWith] at h
  split at h
  · simp at h
  rename_i hlen
  rw [← headAt] at h
  simp only at h
  rw [except_bind_eq_ok] at h
  obtain ⟨_, hcheck, h⟩ := h
  rw [except_bind_eq_ok] at h
  obtain ⟨r, hkeys, h⟩ := h
  refine ⟨not_not.mp hlen, hcheck, r, hkeys, ?_⟩
  split at h
  · rw [except_bind_eq_ok] at h
    obtain ⟨u, hu, h⟩ := h
    split at h
    · simp at h
    rw [Except.ok.injEq] at h
    subst h
    exact ⟨rfl, fun _ => ⟨u, hu⟩⟩
  · rename_i hc
    rw [Except.ok.injEq] at h
    subst h
    exact ⟨rfl, fun hch => absurd hch hc⟩

lemma viewed_of_viewWith {page : Bytes} {checked : Bool} (h : viewWith page checked = .ok pv) :
    Viewed pv := by
  obtain ⟨hlen, hcheck, r, hkeys, rfl, -⟩ := viewWith_eq_ok h
  exact ⟨hlen, rfl, hcheck, (keysFrom_length _ hkeys).1⟩

lemma of_fields (pv : PageView) : (of pv).header = pv.header ∧ (of pv).page = pv.page
    ∧ (of pv).keyAt.length = ZMAX_GROUPS ∧ (of pv).keyEnd.length = ZMAX_GROUPS := by
  obtain ⟨hheader, hpage, hat, hend⟩ := withSpans_fields pv.keySpans
    ⟨pv.header, pv.page, pv.keysAt, List.replicate ZMAX_GROUPS 0, List.replicate ZMAX_GROUPS 0⟩ 1
  rw [of, hheader, hpage, hat, hend]
  exact ⟨rfl, rfl, List.length_replicate, List.length_replicate⟩

/-- **The loop over the directory** is the page format's. -/
lemma entriesRun_eq {v : View} {stop : ℕ} (hpage : v.page = pv.page)
    (hheader : v.header = pv.header)
    (hlen : pv.page.length = ZPAGE) (n : ℕ) : ∀ {j expect ulen : ℕ}, j + n ≤ 16 →
      ZHDR + ZDIR_ENTRY * (j + n) ≤ ZPAGE → ulen ≤ j * 2 ^ 17 →
      entriesRun v stop n j expect ulen = ofExcept (entriesFrom pv stop n j expect ulen) := by
  induction n with
  | zero => exact fun _ _ _ => rfl
  | succ n ih =>
      intro j expect ulen hj hdir hulen
      have hdir8 := hdir
      rw [ZHDR, ZDIR_ENTRY, ZPAGE] at hdir8
      have hraw : ∀ {i : ℕ}, i ≤ j → v.entryRawRun i = ok (pv.entryRaw i) := by
        intro i hi
        refine entryRawRun_eq hpage hlen ?_
        rw [ZHDR, ZDIR_ENTRY, ZPAGE]
        omega
      obtain ⟨-, hcoff, hclen, -⟩ := entryRaw_lt pv j
      rw [entriesRun, entriesFrom, hraw le_rfl, ok_bind]
      generalize pv.entryRaw j = raw at hcoff hclen
      obtain ⟨first, coff, clen, ulen4⟩ := raw
      dsimp only at hcoff hclen ⊢
      have hdesc : descendsRun v j first = ok (decide (j ≠ 0 ∧ first ≤ (pv.entryRaw (j - 1)).1)) := by
        rw [descendsRun]
        by_cases hz : j = 0
        · rw [if_pos hz]
          simp [hz]
        · rw [if_neg hz, hraw (by omega), ok_bind]
          simp [hz]
      rw [hdesc, ok_bind, hheader]
      by_cases h1 : j ≠ 0 ∧ first ≤ (pv.entryRaw (j - 1)).1
      · rw [if_pos h1, if_pos (by rw [decide_eq_true_eq]; exact h1)]
        rfl
      rw [if_neg h1, if_neg (by rw [decide_eq_true_eq]; exact h1)]
      by_cases h2 : first ≠ (if j = 0 then 0 else first) ∨ pv.header.count ≤ first
      · rw [if_pos h2, if_pos h2]
        rfl
      rw [if_neg h2, if_neg h2]
      by_cases h3 : coff ≠ expect ∨ clen = 0
      · rw [if_pos h3, if_pos h3]
        rfl
      rw [if_neg h3, if_neg h3]
      have hmod : ulen4 % D_CODED < 2 ^ 15 := Nat.mod_lt _ (by norm_num [D_CODED])
      generalize ulen4 % D_CODED = units at hmod ⊢
      by_cases h4 : units * 4 = 0 ∨ ZMAX_ULEN < units * 4
      · rw [if_pos h4, if_pos h4]
        rfl
      rw [if_neg h4, if_neg h4]
      by_cases h5 : pv.header.isStored j ∧ clen ≠ units * 4
      · rw [if_pos h5, if_pos h5]
        rfl
      rw [if_neg h5, if_neg h5]
      by_cases h6 : pv.header.isStored j ∧ D_CODED ≤ ulen4
      · rw [if_pos h6, if_pos h6]
        rfl
      rw [if_neg h6, if_neg h6, addU_eq (by omega), ok_bind]
      by_cases h7 : stop < coff + clen
      · rw [if_pos h7, if_pos h7]
        rfl
      rw [if_neg h7, if_neg h7]
      by_cases h8 : j + 1 = pv.header.groups ∧ coff + clen ≠ stop
      · rw [if_pos h8, if_pos h8]
        rfl
      have hup := alignUp_lt (coff + clen) (by norm_num : 0 < 4)
      rw [if_neg h8, if_neg h8, nextMultipleOf_eq (by omega), ok_bind, addU_eq (by omega), ok_bind,
        ih (by omega) (by rw [ZHDR, ZDIR_ENTRY, ZPAGE]; omega) (by omega)]

/-- **The view a machine makes is the page format's**, of every string, with the cross-checks and
without. -/
theorem viewWithRun_eq (page : Bytes) (checked : Bool) :
    viewWithRun page checked = (Run.ofExcept (viewWith page checked) >>= fun pv => ok (of pv)) := by
  rw [viewWithRun, viewWith]
  by_cases hlen : page.length ≠ ZPAGE
  · rw [if_pos hlen, if_pos hlen]
    rfl
  rw [not_not] at hlen
  rw [if_neg (not_not_intro hlen), if_neg (not_not_intro hlen), headerRun_eq hlen,
    ok_bind, ← headAt]
  dsimp only
  cases hcheck : (headAt page).check with
  | error e => rfl
  | ok u =>
      obtain ⟨-, hgroups, -, -, hdir, hcap⟩ := PageHeader.check_iff.mp hcheck
      have hstop : ZHDR + (headAt page).used ≤ ZPAGE := by
        rw [ZCAP, ZPAGE, ZHDR] at hcap
        rw [ZHDR, ZPAGE]
        omega
      have hbound : ZHDR + (headAt page).used ≤ 4096 := hstop
      rw [ofExcept_ok, ok_bind, addU_eq (by omega), ok_bind, mulU_eq (by omega), ok_bind, addU_eq (by omega), ok_bind]
      rw [keySpansRun_eq hstop _ hlen (by omega) (by omega) (by change 1 + (_ - 1) ≤ (headAt page).groups; omega)
        (by rw [List.length_replicate]; omega) (by rw [List.length_replicate]; omega) (fun _ => rfl) (by omega)]
      change (_ >>= _) = (Run.ofExcept (keysFrom _ _ _ _ _ _ >>= _) >>= _)
      cases hkeys : keysFrom page (ZHDR + (headAt page).used) checked ((headAt page).groups - 1)
          (ZHDR + ZDIR_ENTRY * (headAt page).groups) none with
      | error e => rfl
      | ok r =>
          obtain ⟨hspans, hpos⟩ := keysFrom_length _ hkeys
          obtain ⟨spans, pos⟩ := r
          rw [ofExcept_ok, ok_bind, ok_bind]
          dsimp only at hspans hpos ⊢
          set pv : PageView := ⟨headAt page, page, ZHDR + ZDIR_ENTRY * (headAt page).groups, spans⟩ with hpv
          have hof :
              (View.mk (headAt page) page (ZHDR + ZDIR_ENTRY * (headAt page).groups)
              (List.replicate ZMAX_GROUPS 0)
              (List.replicate ZMAX_GROUPS 0)).withSpans 1 spans = of pv := rfl
          rw [hof]
          cases checked with
          | false => rfl
          | true =>
              have hup := alignUp_lt pos (by norm_num : 0 < 4)
              obtain ⟨hheader, hpage, -, -⟩ := of_fields pv
              have hentries := @entriesRun_eq _ _ (ZHDR + (headAt page).used) hpage hheader hlen
                  (headAt page).groups 0 (alignUp pos 4) 0 (by rw [ZMAX_GROUPS] at hgroups; omega)
                  (by rw [Nat.zero_add]; omega) (by omega)
              simp only [if_true]
              rw [nextMultipleOf_eq (by omega), ok_bind, hentries]
              change _ = (Run.ofExcept (entriesFrom _ _ _ _ _ _ >>= _) >>= _)
              cases entriesFrom pv (ZHDR + (headAt page).used) (headAt page).groups 0 (alignUp pos 4) 0 with
              | error e => rfl
              | ok ulen =>
                  rw [ofExcept_ok, ok_bind]
                  change _ = (Run.ofExcept (if ulen ≠ (headAt page).ulen then _ else _) >>= _)
                  by_cases hu : ulen ≠ (headAt page).ulen
                  · rw [if_pos hu, if_pos hu]
                    rfl
                  · rw [if_neg hu, if_neg hu]
                    rfl

lemma group_lt {j : ℕ} {g : GroupEntry} (hg : pv.group j = some g) : g.coff < 2 ^ 16 ∧
    g.clen < 2 ^ 16 := by
  obtain ⟨-, hcoff, hclen, -⟩ := entryRaw_lt pv j
  obtain ⟨-, -, rfl⟩ := PageView.group_eq_some.mp hg
  exact ⟨hcoff, hclen⟩

/-! ## What a view hands out -/

section Reads

variable (h : Viewed pv)
include h

lemma entryRaw_of {j : ℕ} (hj : j < pv.header.groups) :
    (of pv).entryRawRun j = ok (pv.entryRaw j) := by
  obtain ⟨-, hmost, hdir⟩ := h.groups_le
  refine entryRawRun_eq (of_fields pv).2.1 h.length ?_
  rw [ZHDR, ZDIR_ENTRY, ZPAGE] at hdir ⊢
  omega

lemma groupRun_eq (j : ℕ) : (of pv).groupRun j = ok (pv.group j) := by
  obtain ⟨hheader, -, -, -⟩ := of_fields pv
  obtain ⟨-, hmost, -⟩ := h.groups_le
  rw [View.groupRun, PageView.group, hheader]
  by_cases hj : pv.header.groups ≤ j
  · rw [if_pos hj, if_pos hj]
  rw [if_neg hj, if_neg hj, entryRaw_of h (by omega), ok_bind]
  have hnext : (of pv).nextFirstRun j
      = ok (if j + 1 < pv.header.groups then (pv.entryRaw (j + 1)).1 else pv.header.count) := by
    rw [View.nextFirstRun, addU_eq (by omega), ok_bind, hheader]
    by_cases hj' : j + 1 < pv.header.groups
    · rw [if_pos hj', if_pos hj', entryRaw_of h hj', ok_bind]
    · rw [if_neg hj', if_neg hj']
  dsimp only
  rw [hnext, ok_bind]
  generalize (if j + 1 < pv.header.groups then (pv.entryRaw (j + 1)).1 else pv.header.count) = next
  by_cases hle : (pv.entryRaw j).1 ≤ next
  · rw [if_pos hle, if_pos hle]
  · rw [if_neg hle, if_neg hle]

lemma keyRun_eq (j : ℕ) : (of pv).keyRun j = ok (pv.key j) := by
  obtain ⟨hheader, hpage, -, -⟩ := of_fields pv
  obtain ⟨-, hmost, -⟩ := h.groups_le
  rw [PageView.key]
  by_cases hj : j = 0 ∨ pv.header.groups ≤ j
  · rw [View.keyRun, hheader, if_pos hj, if_pos hj]
  have hspans := h.spans
  have hlt : j - 1 < pv.keySpans.length := by omega
  have hs : pv.keySpans[j - 1]? = some pv.keySpans[j - 1] := List.getElem?_eq_getElem hlt
  have hroom : 1 + (j - 1) < 16 := by omega
  obtain ⟨hat, hend⟩ := withSpans_at pv.keySpans
    ⟨pv.header, pv.page, pv.keysAt, List.replicate ZMAX_GROUPS 0, List.replicate ZMAX_GROUPS 0⟩
    (j := 1) hs
    (by rw [List.length_replicate]; exact hroom) (by rw [List.length_replicate]; exact hroom)
  rw [show 1 + (j - 1) = j by omega] at hat hend
  change (of pv).keyAt[j]? = _ at hat
  change (of pv).keyEnd[j]? = _ at hend
  rw [if_neg hj, hs, View.keyRun_of_spans (by omega) (by rw [hheader]; omega) hat hend, hpage]
  rfl

lemma payloadRun_eq (j : ℕ) : (of pv).payloadRun j = ok (pv.payload j) := by
  obtain ⟨-, hpage, -, -⟩ := of_fields pv
  rw [View.payloadRun, groupRun_eq h, ok_bind, PageView.payload]
  cases hg : pv.group j with
  | none => rfl
  | some g =>
      obtain ⟨hcoff, hclen⟩ := group_lt hg
      dsimp only
      rw [addU_eq (by omega), ok_bind, hpage]
      rfl

lemma payloadAndRestRun_eq (j : ℕ) : (of pv).payloadAndRestRun j = ok (do
    let g ← pv.group j
    let rest ← getRange pv.page g.coff pv.page.length
    if g.clen ≤ rest.length then some (rest, g.clen) else none) := by
  obtain ⟨-, hpage, -, -⟩ := of_fields pv
  rw [View.payloadAndRestRun, groupRun_eq h, ok_bind, hpage]
  cases pv.group j with
  | none => rfl
  | some g =>
      change _ = ok (getRange pv.page g.coff pv.page.length >>= _)
      dsimp only
      cases getRange pv.page g.coff pv.page.length with
      | none => rfl
      | some rest =>
          change _ = ok (if g.clen ≤ rest.length then some (rest, g.clen) else none)
          dsimp only
          by_cases hle : g.clen ≤ rest.length
          · rw [if_pos hle, if_pos hle]
          · rw [if_neg hle, if_neg hle]

/-- `group_of_index` names a group of the page. -/
lemma groupOfIndexRun_post (i : ℕ) : ((of pv).groupOfIndexRun i).Post (· < pv.header.groups) := by
  obtain ⟨hheader, -, -, -⟩ := of_fields pv
  obtain ⟨hpos, hmost, -⟩ := h.groups_le
  have hfrom : ∀ n j, pv.header.groups - j = n → j < pv.header.groups →
      ((of pv).groupOfIndexFrom i j).Post (· < pv.header.groups) := by
    intro n
    induction n with
    | zero => exact fun j hn hj => absurd hn (by omega)
    | succ n ih =>
        intro j hn hj
        rw [View.groupOfIndexFrom, addU_eq (by omega), ok_bind, hheader]
        by_cases hj' : j + 1 < pv.header.groups
        · rw [if_pos hj', entryRaw_of h hj', ok_bind]
          by_cases hle : (pv.entryRaw (j + 1)).1 ≤ i
          · rw [if_pos hle]
            exact ih (j + 1) (by omega) hj'
          · rw [if_neg hle]
            exact hj
        · rw [if_neg hj']
          exact hj
  exact hfrom _ 0 rfl hpos

/-- `group_of_key` names a group of the page. -/
lemma groupOfKeyRun_post (key : Bytes) :
    ((of pv).groupOfKeyRun key).Post (· < pv.header.groups) := by
  obtain ⟨hheader, -, -, -⟩ := of_fields pv
  obtain ⟨hpos, hmost, -⟩ := h.groups_le
  have hfrom : ∀ n j, pv.header.groups - j = n → j < pv.header.groups →
      ((of pv).groupOfKeyFrom key j).Post (· < pv.header.groups) := by
    intro n
    induction n with
    | zero => exact fun j hn hj => absurd hn (by omega)
    | succ n ih =>
        intro j hn hj
        rw [View.groupOfKeyFrom, addU_eq (by omega), ok_bind, hheader]
        by_cases hj' : j + 1 < pv.header.groups
        · rw [if_pos hj', keyRun_eq h, ok_bind]
          by_cases hle : ∃ k' ∈ pv.key (j + 1), keyCmp k' key ≠ .gt
          · rw [if_pos hle]
            exact ih (j + 1) (by omega) hj'
          · rw [if_neg hle]
            exact hj
        · rw [if_neg hj']
          exact hj
  exact hfrom _ 0 rfl hpos

end Reads

/-! ## A group checked -/

lemma codedRec_head {payload : Bytes} {count i : ℕ} {r : CodedRec}
    (hr : codedRec payload count i = .ok r) : 4 ≤ r.headLen := by
  rw [codedRec] at hr
  split at hr
  · simp at hr
  simp only at hr
  split at hr
  · simp at hr
  split at hr
  · simp at hr
  split at hr
  · simp at hr
  rename_i hchecks
  split at hr
  · simp at hr
  rw [Except.ok.injEq] at hr
  subst hr
  omega

lemma codedKeyIntoRun_eq (head0 : Bytes) {r : CodedRec} (hhead : 4 ≤ r.headLen) :
    codedKeyIntoRun head0 r = ok (codedKeyInto head0 r) := by
  rw [codedKeyIntoRun, codedKeyInto]
  by_cases hp : head0.length < r.plen
  · rw [if_pos hp, if_pos hp]
  rw [CodedRec.headLen] at hhead
  rw [if_neg hp, if_neg hp, cut_eq (Nat.zero_le _) (by omega), ok_bind]
  have hshared : slice head0 0 r.plen = head0.take r.plen := rfl
  have hlong : 4 ≤ (head0.take r.plen ++ r.suffix).length := by
    rw [List.length_append, List.length_take]
    omega
  rw [hshared, cut_eq hlong le_rfl, ok_bind, slice, List.take_length]

lemma checkCodedFromRun_eq {payload : Bytes} (hlen : payload.length < 2 ^ 62) {count : ℕ}
    {head0 : Bytes}
    {first below : Option Bytes} (n : ℕ) : ∀ {i : ℕ} {prev : Bytes} {ulen : ℕ},
      ulen + n * 2 ^ 16 < 2 ^ 64 → checkCodedFromRun payload count head0 first below n i prev ulen
        = ofExcept (checkCodedFrom payload count head0 first below n i prev ulen) := by
  induction n with
  | zero => exact fun _ => rfl
  | succ n ih =>
      intro i prev ulen hulen
      rw [checkCodedFromRun, checkCodedFrom, codedRecRun_eq hlen]
      refine ofExcept_bind_eq ?_
      intro r hr
      have hmost := (codedRec_bounds hr).2
      rw [ZMAX_ULEN] at hmost
      rw [Flatindex.checked, if_pos (by omega), okOr_some, ok_bind,
        codedKeyIntoRun_eq head0 (codedRec_head hr), ok_bind]
      cases codedKeyInto head0 r with
      | none => rfl
      | some cur =>
          dsimp only
          by_cases h1 : i = 0 ∧ ∃ f ∈ first, f ≠ cur
          · rw [if_pos h1, if_pos h1]
            rfl
          rw [if_neg h1, if_neg h1]
          by_cases h2 : 0 < i ∧ keyCmp prev cur ≠ .lt
          · rw [if_pos h2, if_pos h2]
            rfl
          rw [if_neg h2, if_neg h2]
          by_cases h3 : ∃ b ∈ below, keyCmp cur b ≠ .lt
          · rw [if_pos h3, if_pos h3]
            rfl
          · rw [if_neg h3, if_neg h3, ih (by omega)]

/-- A record ends in the buffer it is read from, but for the padding behind it. -/
lemma parseRecord_end {base off : ℕ} {buf key tail : Bytes} {exts : List Ext} {len : ℕ}
    (hr : parseRecord base buf off = some (key, exts, tail, len)) : off + len < buf.length + 4 := by
  simp only [parseRecord, Option.bind_eq_bind, Option.bind_eq_some_iff, Option.some.injEq,
    Prod.mk.injEq] at hr
  obtain ⟨klen, -, header, -, key', -, rest, hrest, ⟨exts', tail', used⟩, hused, -, -, -, rfl⟩ := hr
  obtain ⟨hle, -, rfl⟩ := getRange_eq_some.mp hrest
  have hu := parseRecordTail_used hused
  rw [length_slice_of_le le_rfl] at hu
  have hup := alignUp_lt (off + alignUp (4 + klen) REC_ALIGN + used - off)
    (by norm_num [REC_ALIGN] : 0 < REC_ALIGN)
  have hal : REC_ALIGN = 4 := rfl
  dsimp only at hup ⊢
  omega

lemma parseRecord_aligned {base : ℕ} (hb : 4 ∣ base) (buf : Bytes) (off : ℕ) :
    parseRecord base buf off = parseRecord 0 buf off := by
  have htail : ∀ pos header rest, parseRecordTail (base + pos) header rest
    = parseRecordTail (0 + pos) header rest := by
    intro pos header rest
    have hmod : (base + pos) % 4 = (0 + pos) % 4 := by omega
    rw [parseRecordTail, parseRecordTail, hmod]
  rw [parseRecord, parseRecord]
  simp only [htail]

/-- **The walk over a decoded group** never traps, and of a group that is aligned it is the record
coding's. -/
lemma walkFromRun_eq (base : ℕ) {group : Bytes} (hlen : group.length < 2 ^ 62)
    {first below : Option Bytes} (n : ℕ) : ∀ {i off : ℕ} {prev : Option Bytes}, off < 2 ^ 63 →
      ∃ x, walkFromRun base group first below n i prev off = ofExcept x
        ∧ (4 ∣ base → x = walkFrom group first below n i prev off) := by
  induction n with
  | zero => exact fun {i off prev} _ => ⟨.ok off, rfl, fun _ => rfl⟩
  | succ n ih =>
      intro i off prev hoff
      rw [walkFromRun, walkFrom, parseRecordRun_eq base (by omega) hoff, orErr_ofOption]
      cases hr : parseRecord base group off with
      | none =>
          refine ⟨.error CUT, rfl, fun hb => ?_⟩
          rw [← parseRecord_aligned hb, hr]
      | some r =>
          obtain ⟨key, exts, tail, len⟩ := r
          have hend := parseRecord_end hr
          obtain ⟨x, hx, heq⟩ := @ih (i + 1) (off + len) (some key) (by omega)
          rw [okOr_some, ok_bind]
          simp only [Flatindex.checked, if_pos (show off + len < 2 ^ 64 by omega), okOr_some, ok_bind, hx]
          refine ⟨if i = 0 ∧ ∃ f ∈ first, f ≠ key then .error (.walk "the first key is not the one named for it")
            else if ∃ p ∈ prev, key ≤ p then .error (.walk "keys do not ascend")
            else if ∃ b ∈ below, keyCmp key b ≠ .lt then .error (.walk "a key is not below the next group's first")
            else x, ?_, fun hb => ?_⟩
          · by_cases h1 : i = 0 ∧ ∃ f ∈ first, f ≠ key
            · rw [if_pos h1, if_pos h1]
              rfl
            rw [if_neg h1, if_neg h1]
            by_cases h2 : ∃ p ∈ prev, key ≤ p
            · rw [if_pos h2, if_pos h2]
              rfl
            rw [if_neg h2, if_neg h2]
            by_cases h3 : ∃ b ∈ below, keyCmp key b ≠ .lt
            · rw [if_pos h3, if_pos h3]
              rfl
            · rw [if_neg h3, if_neg h3]
          · rw [← parseRecord_aligned hb, hr, heq hb]

section Checks

variable (h : Viewed pv)
include h

lemma keysAroundRun_eq {j : ℕ} (hj : j < 2 ^ 63) (entry : FenceEntry) :
    keysAroundRun (of pv) j entry
    = ok (if j = 0 then some entry.key else pv.key j, pv.key (j + 1)) := by
  have hfirst : firstKeyRun (of pv) j entry = ok (if j = 0 then some entry.key else pv.key j) := by
    rw [firstKeyRun]
    by_cases hz : j = 0
    · rw [if_pos hz, if_pos hz]
    · rw [if_neg hz, if_neg hz, keyRun_eq h]
  rw [keysAroundRun, hfirst, ok_bind, addU_eq (by omega), ok_bind, keyRun_eq h, ok_bind]

lemma group_bounds {j : ℕ} {g : GroupEntry} (hg : pv.group j = some g) : j < 16 ∧
    g.count < 2 ^ 16 := by
  obtain ⟨-, hmost, -⟩ := h.groups_le
  obtain ⟨hcount, -⟩ := PageHeader.check_iff.mp h.check
  rw [ZMAX_COUNT] at hcount
  obtain ⟨hj, -, rfl⟩ := PageView.group_eq_some.mp hg
  refine ⟨by omega, ?_⟩
  have hnext : pv.firstOf (j + 1) < 2 ^ 16 := by
    rw [PageView.firstOf]
    split
    · exact (entryRaw_lt pv (j + 1)).1
    · omega
  dsimp only
  omega

/-- **`check_coded_group`** is the record coding's. -/
theorem checkCodedGroupRun_eq {payload : Bytes} (hlen : payload.length < 2 ^ 62) (j : ℕ)
    (entry : FenceEntry) :
    checkCodedGroupRun payload (of pv) j entry = ofExcept (checkCodedGroup payload pv j entry) := by
  rw [checkCodedGroupRun, checkCodedGroup, groupRun_eq h, ok_bind]
  cases hg : pv.group j with
  | none => rfl
  | some g =>
      obtain ⟨hj, hcount⟩ := group_bounds h hg
      dsimp only
      rw [keysAroundRun_eq h (by omega), ok_bind]
      dsimp only
      rw [codedFirstRun_eq hlen]
      refine ofExcept_bind_eq ?_
      rintro ⟨head0, tail0⟩ -
      dsimp only
      rw [checkCodedFromRun_eq hlen _ (by omega)]
      refine ofExcept_bind_eq ?_
      intro ulen _
      by_cases hne : ulen ≠ g.ulen
      · rw [if_pos hne, if_pos hne]
        rfl
      · rw [if_neg hne, if_neg hne]
        rfl

/-- **`check_group`** never traps, wherever the group lies, and of a group that is aligned it is the
record coding's. -/
theorem checkGroupRun_eq (base : ℕ) {group : Bytes} (hlen : group.length < 2 ^ 62) (j : ℕ)
    (entry : FenceEntry) :
    ∃ x, checkGroupRun base group (of pv) j entry = ofExcept x ∧
    (4 ∣ base → x = checkGroup group pv j entry) := by
  rw [checkGroupRun, checkGroup, groupRun_eq h, ok_bind]
  cases hg : pv.group j with
  | none => exact ⟨.error (.header "no such group in the page"), rfl, fun _ => rfl⟩
  | some g =>
      obtain ⟨hj, -⟩ := group_bounds h hg
      dsimp only
      rw [keysAroundRun_eq h (by omega), ok_bind]
      dsimp only
      obtain ⟨x, hx, heq⟩ := @walkFromRun_eq base _ hlen _ (pv.key (j + 1)) g.count 0 0 none (by omega)
      rw [walkGroupRun, walkGroup, hx]
      refine ⟨x >>= fun off => if off ≠ group.length then .error (.walk "the group is not exactly count records")
        else .ok (), ?_, fun hb => ?_⟩
      · refine ofExcept_bind_eq ?_
        intro off _
        by_cases hne : off ≠ group.length
        · rw [if_pos hne, if_pos hne]
          rfl
        · rw [if_neg hne, if_neg hne]
          rfl
      · rw [heq hb]

end Checks

/-! ## A group decoded -/

/-- A stored group of a view that the decode copies, its payload not aligned for an extent, and
whose payload is not as long as the group is said to be. -/
def TornGroup (base : ℕ) (g : GroupEntry) : Prop :=
  g.stored = true ∧ (0 < g.ulen ∧ g.ulen ≤ ZMAX_ULEN) ∧ ¬4 ∣ base + g.coff ∧ g.clen ≠ g.ulen

lemma decodeStoredRun_eq {base coff ulen : ℕ} {payload : Bytes} (buf : GroupBuf)
    (hulen : ulen ≤ ZMAX_ULEN)
    (hwhole : 4 ∣ base + coff ∨ payload.length = ulen) : decodeStoredRun base coff ulen payload buf
    = ok payload := by
  rw [decodeStoredRun]
  by_cases hal : 4 ∣ base + coff
  · rw [if_pos hal]
  · obtain ⟨out, hout, hol⟩ := bytesForRun_eq buf hulen
    have hpl : payload.length = out.length := by
      rw [hol]
      exact hwhole.resolve_left hal
    rw [if_neg hal, hout, ok_bind, copyTo_eq (Nat.zero_le _) le_rfl (by omega), writeAt_whole hpl]

/-- The copy of a torn group ends the process. -/
lemma decodeStoredRun_torn {base coff ulen : ℕ} {payload : Bytes} (buf : GroupBuf)
    (hulen : ulen ≤ ZMAX_ULEN)
    (hal : ¬4 ∣ base + coff) (hne : payload.length ≠ ulen) :
    decodeStoredRun base coff ulen payload buf = trap .bounds := by
  obtain ⟨out, hout, hol⟩ := bytesForRun_eq buf hulen
  rw [decodeStoredRun, if_neg hal, hout, ok_bind, copyTo, if_neg (by omega)]

lemma decodeFlexRun_safe (lz4 : Lz4Flex) (payload : Bytes) {ulen : ℕ} (hulen : ulen ≤ ZMAX_ULEN)
    (buf : GroupBuf) : (decodeFlexRun lz4 payload ulen buf).Safe := by
  obtain ⟨out, hout, hol⟩ := bytesForRun_eq buf hulen
  rw [decodeFlexRun, hout, ok_bind]
  cases lz4.decompressInto payload out.length with
  | none => trivial
  | some x =>
      rw [okOr_some, ok_bind]
      by_cases hne : x.length ≠ ulen
      · rw [if_pos hne]
        trivial
      · rw [if_neg hne]
        trivial

section Decode

variable (h : Viewed pv)
include h

lemma decodeOwnRun_safe {j ulen : ℕ} (hulen : ulen ≤ ZMAX_ULEN) (buf : GroupBuf) :
    (decodeOwnRun (of pv) j ulen buf).Safe := by
  rw [decodeOwnRun, payloadAndRestRun_eq h, ok_bind]
  cases hrest : (do
    let g ← pv.group j
    let rest ← getRange pv.page g.coff pv.page.length
    if g.clen ≤ rest.length then some (rest, g.clen) else none) with
  | none => trivial
  | some r =>
      obtain ⟨rest, len⟩ := r
      have hle : len ≤ rest.length := by
        simp only [Option.bind_eq_bind, Option.bind_eq_some_iff] at hrest
        obtain ⟨g, -, rest', -, hif⟩ := hrest
        split at hif
        · rename_i hle
          rw [Option.some.injEq, Prod.mk.injEq] at hif
          obtain ⟨rfl, rfl⟩ := hif
          exact hle
        · simp at hif
      obtain ⟨out, hout, hol⟩ := bytesWithSlackRun_eq buf hulen
      have hdec := decompressIn_decodes out hle
      rw [okOr_some, ok_bind]
      dsimp only
      rw [DECODE_SLACK, hout, ok_bind]
      generalize decompressIn rest len out = decoded at hdec ⊢
      generalize blockFrom (rest.take len) out.length 0 [] = answer at hdec
      cases hdec with
      | err => trivial
      | ok hw =>
          rename_i said dst
          have hdl := hw.length
          rw [ofDecoded, ok_bind]
          dsimp only
          by_cases hlong : ulen < said.length
          · rw [if_pos hlong]
            trivial
          rw [if_neg hlong]
          by_cases hshort : said.length < ulen
          · rw [if_pos hshort]
            trivial
          · rw [if_neg hshort, cut_eq (Nat.zero_le _) (by omega)]
            trivial

/-- **A group's decode never traps but over a torn group**, by either decoder, whatever the buffer
held. -/
theorem decodeGroupWithRun_safe_iff (lz4 : Lz4Flex) (base j : ℕ) (buf : GroupBuf) (own : Bool) :
    (decodeGroupWithRun lz4 base (of pv) j buf own).Safe
      ↔ ∀ g x, pv.group j = some g → pv.payload j = some x → ¬TornGroup base g := by
  rw [decodeGroupWithRun, groupRun_eq h, ok_bind]
  cases hg : pv.group j with
  | none => exact ⟨fun _ g x hc => absurd hc (by simp), fun _ => trivial⟩
  | some g =>
      rw [okOr_some, ok_bind, payloadRun_eq h, ok_bind]
      cases hx : pv.payload j with
      | none => exact ⟨fun _ g x _ hc => absurd hc (by simp), fun _ => trivial⟩
      | some x =>
          have hxl : x.length = g.clen ∧ x.length ≤ ZPAGE := by
            rw [PageView.payload, hg, some_bind_eq, getRange_eq_some] at hx
            obtain ⟨hle, hin, rfl⟩ := hx
            rw [length_slice_of_le hin]
            have hlen := h.length
            omega
          have hxs : x.length < 2 ^ 62 := by
            have := hxl.2
            rw [ZPAGE] at this
            omega
          have hiff : (∀ g' x', some g = some g' → some x = some x' → ¬TornGroup base g') ↔ ¬TornGroup base g :=
            ⟨fun hall => hall g x rfl rfl, fun hn g' x' hg' _ => by rw [← Option.some.inj hg']; exact hn⟩
          rw [okOr_some, ok_bind, hiff]
          by_cases hbad : g.ulen = 0 ∨ ZMAX_ULEN < g.ulen
          · rw [if_pos hbad]
            refine ⟨fun _ ht => ?_, fun _ => trivial⟩
            have := ht.2.1
            omega
          rw [if_neg hbad]
          by_cases hstored : g.stored = true
          · rw [if_pos hstored]
            by_cases hwhole : 4 ∣ base + g.coff ∨ x.length = g.ulen
            · rw [decodeStoredRun_eq buf (by omega) hwhole]
              refine ⟨fun _ ht => ?_, fun _ => trivial⟩
              rcases hwhole with hal | heq
              · exact ht.2.2.1 hal
              · exact ht.2.2.2 (by omega)
            · rw [not_or] at hwhole
              rw [decodeStoredRun_torn buf (by omega) hwhole.1 hwhole.2]
              refine ⟨fun hs => absurd hs id, fun hn => hn ⟨hstored, by omega, hwhole.1, by omega⟩⟩
          · rw [if_neg hstored]
            refine ⟨fun _ ht => hstored ht.1, fun _ => ?_⟩
            by_cases hcoded : g.coded = true
            · rw [if_pos hcoded, decodeRecordGroupRun_eq _ hxs _ (by omega)]
              exact ofExcept_safe _
            rw [if_neg hcoded]
            by_cases hown : own = true
            · rw [if_pos hown]
              exact decodeOwnRun_safe h (by omega) buf
            · rw [if_neg hown]
              exact decodeFlexRun_safe lz4 x (by omega) buf

end Decode

/-! ## Every read of a page -/

/-- Every read behind a view returns: of any group index, with any buffer and either decoder, over
any payload and any group a machine can hold. -/
structure Returns (lz4 : Lz4Flex) (base : ℕ) (v : View) : Prop where
  decode : ∀ j buf own, (decodeGroupWithRun lz4 base v j buf own).Safe
  record : ∀ payload count i buf, payload.length < 2 ^ 62 →
    (decodeRecordRun lz4.toDictLz4 payload count i buf).Safe
  check : ∀ at' group j entry, group.length < 2 ^ 62 → (checkGroupRun at' group v j entry).Safe
  checkCoded : ∀ payload j entry, payload.length < 2 ^ 62 →
    (checkCodedGroupRun payload v j entry).Safe
  key : ∀ key, (v.groupOfKeyRun key).Safe
  index : ∀ i, (v.groupOfIndexRun i).Safe

/-- The view exists and every read behind it returns, or the page is refused. -/
def PageReturns (lz4 : Lz4Flex) (base : ℕ) (r : Run ZError View) : Prop := r.Post (Returns lz4 base)

/-- What decides whether a view's reads return. -/
lemma returns_iff (lz4 : Lz4Flex) (base : ℕ) (h : Viewed pv) :
    Returns lz4 base (of pv) ↔ ∀ j g x, pv.group j = some g → pv.payload j = some x →
    ¬TornGroup base g := by
  constructor
  · intro hr j
    exact (decodeGroupWithRun_safe_iff h lz4 base j ⟨[], dvd_zero 8⟩ false).mp (hr.decode j _ false)
  · intro hall
    refine ⟨fun j buf own => (decodeGroupWithRun_safe_iff h lz4 base j buf own).mpr (hall j), ?_,
      ?_, ?_, ?_, ?_⟩
    · intro payload count i buf hlen
      rw [decodeRecordRun_eq _ hlen]
      exact ofExcept_safe _
    · intro at' group j entry hlen
      obtain ⟨x, hx, -⟩ := checkGroupRun_eq h at' hlen j entry
      rw [hx]
      exact ofExcept_safe _
    · intro payload j entry hlen
      rw [checkCodedGroupRun_eq h hlen]
      exact ofExcept_safe _
    · exact fun key => (groupOfKeyRun_post h key).safe
    · exact fun i => (groupOfIndexRun_post h i).safe

/-- A page's reads return where no group of the view, if there is one, is torn. -/
lemma pageReturns_iff (lz4 : Lz4Flex) (base : ℕ) (page : Bytes) (checked : Bool) :
    PageReturns lz4 base (viewWithRun page checked) ↔ ∀ pv, viewWith page checked = .ok pv →
      ∀ j g x, pv.group j = some g → pv.payload j = some x → ¬TornGroup base g := by
  rw [PageReturns, viewWithRun_eq]
  cases hv : viewWith page checked with
  | error e => exact ⟨fun _ pv hc => absurd hc (by simp), fun _ => trivial⟩
  | ok pv =>
      rw [ofExcept_ok, ok_bind, post_ok, returns_iff lz4 base (viewed_of_viewWith hv)]
      exact ⟨fun hall pv' hpv' => by rw [← Except.ok.inj hpv']; exact hall, fun hall => hall pv rfl⟩

/-- The checks of the directory leave no group torn: a stored group is as long as its payload. -/
lemma entriesFrom_stored {pv : PageView} {stop : ℕ} (n : ℕ) : ∀ {j expect ulen u : ℕ},
    entriesFrom pv stop n j expect ulen = .ok u → ∀ i, j ≤ i → i < j + n →
      pv.header.isStored i = true →
      (pv.entryRaw i).2.2.1 = (pv.entryRaw i).2.2.2 % D_CODED * 4 := by
  induction n with
  | zero => exact fun _ i hi hlt => absurd hlt (by omega)
  | succ n ih =>
      intro j expect ulen u hok i hi hlt hs
      obtain ⟨-, -, -, -, -, -, hwhole, -, -, -, hrest⟩ := entriesFrom_succ.mp hok
      by_cases hij : i = j
      · subst hij
        exact hwhole hs
      · exact ih hrest i (by omega) (by omega) hs

/-- **Behind the view that checks the directory every read returns**, of every string and at every
address. -/
theorem pageView_returns (lz4 : Lz4Flex) (base : ℕ) (page : Bytes) :
    PageReturns lz4 base (pageViewRun page) := by
  refine (pageReturns_iff lz4 base page true).mpr ?_
  intro pv hv j g x hg _ htorn
  obtain ⟨-, -, r, -, rfl, hentries⟩ := viewWith_eq_ok hv
  obtain ⟨u, hu⟩ := hentries rfl
  obtain ⟨hj, -, rfl⟩ := PageView.group_eq_some.mp hg
  obtain ⟨hstored, -, -, hne⟩ := htorn
  exact hne (entriesFrom_stored _ hu j (Nat.zero_le j) (by rw [Nat.zero_add]; exact hj) hstored)

/-! ## The one group that ends the process -/

/-- The keys of `n` groups from `pos` on lie in the bytes used, none of them empty. -/
def KeysLie (page : Bytes) (stop : ℕ) : ℕ → ℕ → Prop
  | 0, _ => True
  | n + 1, pos => pos + 2 ≤ stop ∧ half page pos ≠ 0 ∧ pos + 2 + half page pos ≤ stop
      ∧ KeysLie page stop n (pos + 2 + half page pos)

instance KeysLie.decidable (page : Bytes) (stop : ℕ) : ∀ n pos, Decidable (KeysLie page stop n pos)
  | 0, _ => isTrue trivial
  | n + 1, pos =>
      have := KeysLie.decidable page stop n (pos + 2 + half page pos)
      inferInstanceAs (Decidable (_ ∧ _ ∧ _ ∧ _))

/-- Field `d` of entry `j` of a page's directory. -/
def entryHalf (page : Bytes) (j d : ℕ) : ℕ := half page (ZHDR + j * ZDIR_ENTRY + d)

/-- **The page that costs the process**, at the address `base`: its header and its keys pass, and
entry `j` of its directory names a stored group inside the page, of a length a group may have, that
the decode has to copy because the payload is not aligned, with a payload of another length. -/
structure Torn (base : ℕ) (page : Bytes) (j : ℕ) : Prop where
  header : (headAt page).check = .ok ()
  keys : KeysLie page (ZHDR + (headAt page).used) ((headAt page).groups - 1)
    (ZHDR + ZDIR_ENTRY * (headAt page).groups)
  group : j < (headAt page).groups
  ordered : entryHalf page j D_FIRST
    ≤ if j + 1 < (headAt page).groups then entryHalf page (j + 1) D_FIRST else (headAt page).count
  inside : entryHalf page j D_COFF + entryHalf page j D_CLEN ≤ ZPAGE
  stored : (headAt page).isStored j = true
  length : 0 < entryHalf page j D_ULEN4 % D_CODED * 4 ∧
    entryHalf page j D_ULEN4 % D_CODED * 4 ≤ ZMAX_ULEN
  misaligned : ¬4 ∣ base + entryHalf page j D_COFF
  differs : entryHalf page j D_CLEN ≠ entryHalf page j D_ULEN4 % D_CODED * 4

lemma keysLie_iff {page : Bytes} {stop : ℕ} (n : ℕ) : ∀ {pos : ℕ} {prev : Option Bytes},
    KeysLie page stop n pos ↔ ∃ r, keysFrom page stop false n pos prev = .ok r := by
  induction n with
  | zero => exact fun {pos prev} => ⟨fun _ => ⟨_, rfl⟩, fun _ => trivial⟩
  | succ n ih =>
      intro pos prev
      have hoff : ¬(false = true ∧ ∃ prev' ∈ prev,
          keyCmp prev' (slice page (pos + 2) (pos + 2 + half page pos)) ≠ .lt) := by simp
      rw [KeysLie, keysFrom]
      dsimp only
      constructor
      · rintro ⟨h1, h2, h3, hrest⟩
        obtain ⟨r, hr⟩ := (ih).mp hrest
        rw [if_neg (by omega), if_neg (by omega), if_neg hoff, hr]
        exact ⟨_, rfl⟩
      · rintro ⟨r, hr⟩
        split at hr
        · simp at hr
        split at hr
        · simp at hr
        rw [except_bind_eq_ok] at hr
        obtain ⟨r', hr', -⟩ := hr
        exact ⟨by omega, by omega, by omega, ih.mpr ⟨r', hr'⟩⟩

/-- A torn group is one the trusted view hands out. -/
lemma Torn.group_of {base : ℕ} {page : Bytes} {j : ℕ} (ht : Torn base page j)
    (hlen : page.length = ZPAGE) :
    ∃ pv g x, viewWith page false = .ok pv ∧ pv.group j = some g ∧ pv.payload j = some x ∧
    TornGroup base g := by
  obtain ⟨r, hr⟩ := (@keysLie_iff _ _ _ _ none).mp ht.keys
  set pv : PageView := ⟨headAt page, page, ZHDR + ZDIR_ENTRY * (headAt page).groups, r.1⟩ with hpv
  have hv : viewWith page false = .ok pv := by
    rw [viewWith, if_neg (not_not_intro hlen), ← headAt]
    simp only [ht.header, bind, Except.bind, hr]
    rfl
  have hg := (PageView.group_eq_some (v := pv) (j := j)).mpr ⟨ht.group, ht.ordered, rfl⟩
  refine ⟨pv, _,
    slice page (entryHalf page j D_COFF) (entryHalf page j D_COFF + entryHalf page j D_CLEN),
    hv, hg, ?_, ht.stored, ht.length, ht.misaligned, ht.differs⟩
  rw [PageView.payload, hg, some_bind_eq]
  exact getRange_eq_some.mpr ⟨Nat.le_add_right _ _, by rw [hlen]; exact ht.inside, rfl⟩

/-- **Behind the trusted view every read returns exactly where no group is torn.**  The other view
needs no condition. -/
theorem page_returns_iff (lz4 : Lz4Flex) (base : ℕ) (page : Bytes) (hlen : page.length = ZPAGE) :
    (PageReturns lz4 base (pageViewRun page) ∧ PageReturns lz4 base (viewTrustedRun page))
      ↔ ∀ j, ¬Torn base page j := by
  rw [and_iff_right (pageView_returns lz4 base page), viewTrustedRun, pageReturns_iff]
  constructor
  · intro hall j ht
    obtain ⟨pv, g, x, hv, hg, hx, htorn⟩ := ht.group_of hlen
    exact hall pv hv j g x hg hx htorn
  · intro hall pv hv j g x hg hx htorn
    obtain ⟨-, hcheck, r, hkeys, rfl, -⟩ := viewWith_eq_ok hv
    rw [PageView.payload, hg, some_bind_eq, getRange_eq_some] at hx
    obtain ⟨-, hin, -⟩ := hx
    obtain ⟨hj, hordered, rfl⟩ := PageView.group_eq_some.mp hg
    obtain ⟨hstored, hulen, hal, hne⟩ := htorn
    rw [hlen] at hin
    exact hall j ⟨hcheck, (keysLie_iff _).mpr ⟨r, hkeys⟩, hj, hordered, hin, hstored, hulen,
      hal, hne⟩

/-- A page of one stored group, one record of eight bytes: the payload of `clen` bytes at `coff`. -/
def storedPage (coff clen : ℕ) : Bytes :=
  leBytes 4 0 ++ leBytes 4 ZTAG ++ leBytes 4 0 ++ leBytes 2 1 ++ leBytes 2 1 ++ leBytes 4 8 ++
    leBytes 2 16 ++ [1, 0]
    ++ leBytes 2 0 ++ leBytes 2 coff ++ leBytes 2 clen ++ leBytes 2 2 ++ List.replicate 4064 0

/-- LZ4 that decodes nothing. -/
def noFlex : Lz4Flex := ⟨noLz4, fun _ _ => none⟩

lemma not_torn_of_aligned {page : Bytes} (hg : (headAt page).groups = 1) {base : ℕ}
    (hal : 4 ∣ base + entryHalf page 0 D_COFF) (j : ℕ) : ¬Torn base page j := by
  intro ht
  have hj := ht.group
  rw [hg, Nat.lt_one_iff] at hj
  subst hj
  exact ht.misaligned hal

/-- A directory entry off by a bit, and a payload length off by one, that alignment hides. -/
theorem page_returns_aligned : PageReturns noFlex 4096 (pageViewRun (storedPage 32 7))
    ∧ PageReturns noFlex 4096 (viewTrustedRun (storedPage 32 7)) :=
  (page_returns_iff noFlex 4096 (storedPage 32 7) (by decide +kernel)).mpr
    (not_torn_of_aligned (by decide +kernel) (by decide +kernel))

/-- **A damaged page that ends the process**: the payload's offset a byte off and its length one
short. -/
theorem page_panics : (storedPage 33 7).length = ZPAGE ∧
    ∃ v, viewTrustedRun (storedPage 33 7) = ok v
    ∧ ¬(decodeGroupWithRun noFlex 4096 v 0 ⟨[], dvd_zero 8⟩ false).Safe := by
  have hlen : (storedPage 33 7).length = ZPAGE := by decide +kernel
  have ht : Torn 4096 (storedPage 33 7) 0 :=
    ⟨by decide +kernel, by decide +kernel, by decide +kernel, by decide +kernel, by decide +kernel, by decide +kernel,
      by decide +kernel, by decide +kernel, by decide +kernel⟩
  obtain ⟨pv, g, x, hv, hg, hx, htorn⟩ := ht.group_of hlen
  refine ⟨hlen, of pv, ?_, fun hs => ?_⟩
  · rw [viewTrustedRun, viewWithRun_eq, hv]
    rfl
  · exact (decodeGroupWithRun_safe_iff (viewed_of_viewWith hv) noFlex 4096 0 _ false).mp hs g x
      hg hx htorn

end Zpages

end Supdb
